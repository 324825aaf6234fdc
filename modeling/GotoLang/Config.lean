import GotoLang.Optimize

/-!
# Settings of a compilation
-/
namespace GotoLang

inductive Strategy where
  | listing | assembly | object | executable | execution
deriving DecidableEq

def Strategy.text : Strategy → String
  | listing => "textual IR"
  | assembly => "x86-64 assembly"
  | object => "ELF object"
  | executable => "executable"
  | execution => "JIT execution"

/-- Where the grammar graph goes, and whether its names are numbered. -/
structure GraphConfig where
  path : String
  sequenced : Bool := true
deriving DecidableEq

/-- Without an output path the product goes to standard output. Debug information is source lines and labels. A
stack-based program keeps its whole evaluation stack in memory. -/
structure Config where
  input : String
  output : Option String := none
  strategy : Strategy := .execution
  level : OptLevel := .none
  debug : Bool := false
  entryPoint : Bool := false
  stackBased : Bool := false
  graph : Option GraphConfig := none
  maxForwardRefs : Nat := 4096
  maxOps : Option Nat := none
deriving DecidableEq

inductive PathRole where
  | input | output | graph
deriving DecidableEq

def PathRole.text : PathRole → String
  | input => "input"
  | output => "output"
  | graph => "visualization"

inductive ConfigFault where
  | pathTooLong (role : PathRole) (size : Nat)
  | outputEmpty
  | noForwardRefs
  | noOps
deriving DecidableEq

/-- The longest path in bytes. -/
def pathLimit : Nat := 4096

def ConfigFault.reason : ConfigFault → String
  | pathTooLong role size => s!"{role.text} path is too long ({size} bytes, limit {pathLimit})"
  | outputEmpty => "output path is empty"
  | noForwardRefs => "forward reference capacity must be at least 1"
  | noOps => "emission buffer capacity must be at least 1"

namespace Config

def checkPath (role : PathRole) (path : String) : Except ConfigFault Unit :=
  if path.utf8ByteSize ≤ pathLimit then .ok () else .error (.pathTooLong role path.utf8ByteSize)

/-- Refuse settings that cannot be honoured, before any work starts. -/
def validate (config : Config) : Except ConfigFault Unit := do
  checkPath .input config.input
  if let some output := config.output then
    checkPath .output output
    if output = "" then throw .outputEmpty
  if let some graph := config.graph then
    checkPath .graph graph.path
  if config.maxForwardRefs = 0 then throw .noForwardRefs
  if config.maxOps = some 0 then throw .noOps

end Config

end GotoLang
