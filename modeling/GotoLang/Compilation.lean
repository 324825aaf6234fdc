import GotoLang.Ast.Parser
import GotoLang.Elf.Object
import GotoLang.GrammarGraph
import GotoLang.Linking
import GotoLang.Session.Journal
import GotoLang.X64.Listing

/-!
# Compilations

A compilation starts from valid settings. It reads and lowers one source text, drawing the grammar
graph on the way if one is wanted, and then produces what the settings ask for. A product is complete
before anything is written, so a compilation that fails leaves no file behind but the graph.
-/
namespace GotoLang

/-- What a successful compilation did: it wrote a product of some size, or executed the program. -/
inductive Outcome where
  | product (path : Option String) (size : Nat)
  | executed (status : Word)
deriving DecidableEq

def Outcome.exitCode : Outcome → Nat
  | product _ _ => 0
  | executed status => GotoLang.exitCode status

structure Compilation where
  config : Config
  host : Host
  graph : GrammarGraph
  graphPlace : Option Files.Place := none
  session : Session

/-- A part of a compilation; what it did before a failure stays done. -/
abbrev Compile := EStateM CompileError Compilation

structure Report where
  outcome : Outcome
  stats : Stats
deriving DecidableEq

namespace Compilation

/-- Open the file for the graph. If that fails, a warning is all that comes of it. -/
def openGraph (host : Host) : Option GraphConfig → GrammarGraph × Option Files.Place × Host
  | none => (.closed true, none, host)
  | some { path, sequenced } =>
    match host.files.create path with
    | .error fault =>
      (.closed sequenced, none, host.log ⟨.warn, .graph,
        s!"cannot open visualization output {path}: {fault.text}; visualization disabled"⟩)
    | .ok (place, files) =>
      (.opened sequenced {}, some place,
        { host with files }.log ⟨.debug, .graph, s!"grammar visualization written to {path}"⟩)

def start (config : Config) (host : Host) : Except CompileError Compilation :=
  match config.validate with
  | .error fault => .error (.config fault)
  | .ok () =>
    let (graph, graphPlace, host) := openGraph host config.graph
    let host := host.log ⟨.debug, .session,
      s!"context: strategy={config.strategy.text}, opt={config.level.text}, " ++
      s!"debug={config.debug}, stack_based={config.stackBased}"⟩
    .ok { config, host, graph, graphPlace,
          session := Session.start config.maxOps config.maxForwardRefs }

def log (level : Log.Level) (source : Log.Source) (text : String) : Compile Unit :=
  modify fun c => { c with host := c.host.log ⟨level, source, text⟩ }

def setStats (change : Stats → Stats) : Compile Unit :=
  modify fun c => { c with session := { c.session with stats := change c.session.stats } }

def finishGraph (graph : GrammarGraph) : Compile Unit := do
  modify fun c =>
    let graph := graph.finish
    let host := match c.graphPlace with
      | some place => { c.host with files := c.host.files.put place graph.sink.bytes }
      | none => c.host
    { c with graph, host }
  let steps := (← get).graph.steps
  setStats fun stats => { stats with graphEdges := steps }

def lower (ast : Ast) : Compile Program := fun c =>
  let (outcome, session) := ast.lower c.session
  let events := session.journal.toList.drop c.session.journal.size
  let host := events.foldl (fun host event => host.log event.record) c.host
  let c := { c with session, host }
  match outcome with
  | .ok program => .ok program c
  | .error error => .error (.lowering error) c

def build (text : String) : Compile Program := do
  log .debug .compilation s!"compiling {(← get).config.input}"
  let reading := Reading.ofText text (← get).graph
  if let .ok ast := reading.ast then
    log .debug .parser s!"parsed {ast.stmts.length} statements"
  finishGraph reading.graph
  match reading.ast with
  | .error error => throw (.reading error)
  | .ok ast =>
    log .trace .compilation s!"parsed {ast.stmts.length} statements"
    let program ← lower ast
    log .debug .lowering <|
      s!"lowered {ast.stmts.length} statements into {program.ops.size} ops, " ++
      s!"{program.slots.size} slots"
    return program

def optimize (program : Program) : Compile Program := do
  let level := (← get).config.level
  let (program, stats) := program.optimize level
  if level ≠ .none then
    log .debug .optimizer s!"optimizer ({level.text}): {stats.text}"
  if 0 < stats.changed then
    log .debug .emission s!"{stats.text} at {level.text}"
  setStats fun stats => { stats with opsAfterOpt := program.ops.size }
  match program.verify with
  | .ok () => return program
  | .error fault => throw (.program fault)

def machineCode (program : Program) (options : X64.CodeOptions) : Compile X64.MachineCode := do
  match program.compile options with
  | .error error => throw (.ofCode error)
  | .ok machine =>
    let size := machine.bytes.size
    log .debug .codeGeneration <|
      s!"generated {size} bytes of x86-64 ({machine.codeSize} code, " ++
      s!"{size - machine.codeSize} data)"
    return machine

def productCode (program : Program) : Compile X64.MachineCode := do
  let config := (← get).config
  let machine ← machineCode program
    { stackBased := config.stackBased, entryPoint := config.entryPoint }
  setStats fun stats => { stats with codeSize := machine.bytes.size }
  return machine

/-- An object file; its source has the last name of the input path. -/
def object (program : Program) : Compile Bytes := do
  let config := (← get).config
  let machine ← productCode program
  let bytes := machine.object config.debug (Files.Path.ofText config.input).name?
  log .debug .object <|
    s!"built ELF object: {bytes.size} bytes, {machine.functions.length} function symbols"
  return bytes

def link (entryPoint : Bool) (object : Bytes) : Compile Bytes := fun c =>
  match Link.executable entryPoint object c.host with
  | .ok bytes host => .ok bytes { c with host }
  | .error error host => .error error { c with host }

/-- Execute a program. It has to have machine code, too. -/
def execute (program : Program) : Compile Word := do
  discard <| machineCode program { stackBased := (← get).config.stackBased }
  let host := (← get).host
  let take (machine : Machine) : Compile Unit :=
    modify fun c => { c with host := { c.host with out := machine.out, err := machine.err } }
  match Machine.run program.ops host.patience (Machine.start program host.out host.err) with
  | .halted status machine =>
    take machine
    log .debug .execution s!"jit: exited with status {status.toInt}"
    return status
  | .failed fault machine =>
    take machine
    throw (.machine fault)
  | .running machine =>
    take machine
    throw (.unfinished host.patience)

def writeProduct (content : Bytes) : Compile Outcome := do
  let c ← get
  match c.config.output with
  | none =>
    let (out, complete) := c.host.out.write content
    set { c with host := { c.host with out } }
    if !complete then throw (.io "<stdout>" .noRoom)
    if out.flushFails then throw (.io "<stdout>" .flushFailed)
  | some path =>
    let (outcome, host) := c.host.writeFile path content (c.config.strategy = .executable)
    set { c with host }
    match outcome with
    | .error (path, fault) => throw (.io path fault)
    | .ok () => log .debug .artifact s!"wrote {content.size} bytes to {path}"
  return .product c.config.output content.size

def emit (program : Program) : Compile Outcome := do
  let program ← optimize program
  let config := (← get).config
  log .debug .emission s!"emitting {config.strategy.text}"
  match config.strategy with
  | .listing => writeProduct (Bytes.ofText (program.listing config.debug))
  | .assembly => do
    let machine ← productCode program
    writeProduct (Bytes.ofText (machine.listing config.debug))
  | .object => do writeProduct (← object program)
  | .executable => do
    let bytes ← object program
    writeProduct (← link config.entryPoint bytes)
  | .execution => return .executed (← execute program)

def work (text : String) : Compile Report := do
  let program ← build text
  let outcome ← emit program
  let stats := (← get).session.stats
  log .debug .compilation stats.text
  return { outcome, stats }

end Compilation

/-- Compile a source text; the input path of the settings only gives it a name. -/
def compileText (config : Config) (text : String) (host : Host) :
    Except CompileError Report × Host :=
  match Compilation.start config host with
  | .error error => (.error error, host)
  | .ok compilation =>
    match Compilation.work text compilation with
    | .ok report c => (.ok report, c.host)
    | .error error c => (.error error, c.host)

def compileFile (config : Config) (host : Host) : Except CompileError Report × Host :=
  match config.validate with
  | .error fault => (.error (.config fault), host)
  | .ok () =>
    match host.files.read config.input with
    | .error fault => (.error (.io config.input fault), host)
    | .ok bytes =>
      match bytes.text? with
      | none => (.error (.io config.input .notText), host)
      | some text => compileText config text host

end GotoLang
