import GotoLang.Files
import GotoLang.Linker
import GotoLang.Log
import GotoLang.Sink

/-!
# The surroundings of a compilation

Files and streams, with what can be wrong with them: there may be space for a limited number of bytes in each
new file, and a reason why none can be made executable. Log records up to a level go to standard error.
Scratch names are names that nobody else uses, in the order in which they are tried. An executed program is
waited for as long as there is patience, counted in steps.
-/
namespace GotoLang

structure Host where
  files : Files := {}
  out : Sink := {}
  err : Sink := {}
  logLevel : Option Log.Level := none
  scratchNames : List String := [".tmp0", ".tmp1", ".tmp2", ".tmp3"]
  temporary : String := "/tmp"
  space : Option Nat := none
  modeFault : Option IoFault := none
  patience : Nat
  linker : Command → Files → Linker.Run

namespace Host

def log (host : Host) (record : Log.Record) : Host :=
  match host.logLevel with
  | some level =>
    if record.level.rank ≤ level.rank then { host with err := (host.err.print record.line).1 }
    else host
  | none => host

def complain (host : Host) (text : String) : Host :=
  { host with err := (host.err.print text).1 }

def move (scratch : Files.Place) (path : String) : EStateM (String × IoFault) Files Unit := do
  match (← get).persist scratch path with
  | .error fault => throw (path, fault)
  | .ok files => set files

/-- The place and the path of something new in a directory. -/
def newName (host : Host) (directory : Files.Path) : Except IoFault (Files.Place × String) :=
  match host.files.directory directory with
  | .error fault =>
    let name := host.scratchNames.headD ""
    .error (.atPath fault s!"{directory.text}/{name}")
  | .ok place =>
    match host.scratchNames.find? fun name => host.files.isFree (place ++ [name]) with
    | none => .error (.atPath .allTaken directory.text)
    | some name => .ok (place ++ [name], s!"{directory.text}/{name}")

/-- Write a new file as far as there is space, and tell whether it is complete. -/
def pour (host : Host) (place : Files.Place) (content : Bytes) (files : Files) : Bool × Files :=
  let (sink, complete) := Sink.write { room := host.space } content
  (complete, files.put place sink.bytes)

def fill (host : Host) (scratch : Files.Place) (scratchPath path : String) (content : Bytes) (executable : Bool) :
    EStateM (String × IoFault) Files Unit := do
  let complete ← modifyGet (host.pour scratch content)
  if !complete then throw (scratchPath, .noSpace)
  match executable, host.modeFault with
  | true, some fault => throw (path, fault)
  | _, _ => move scratch path

/-- Write a complete file: a new file next to it takes its place. If it cannot, the new file is deleted. -/
def writeFile (host : Host) (path : String) (content : Bytes) (executable : Bool) :
    Except (String × IoFault) Unit × Host :=
  let directory := Files.parent (Files.Path.ofText path)
  match host.newName directory with
  | .error fault => (.error (directory.text, fault), host)
  | .ok (scratch, scratchPath) =>
    match host.fill scratch scratchPath path content executable host.files with
    | .ok () files => (.ok (), { host with files })
    | .error failure files => (.error failure, { host with files := files.remove scratch })

end Host

end GotoLang
