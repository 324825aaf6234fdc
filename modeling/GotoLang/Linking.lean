import GotoLang.CompileError
import GotoLang.Host
import GotoLang.Program.Listing

/-!
# Linking

The object and the executable lie in a directory of their own, which is deleted afterwards, whatever
happened.
-/
namespace GotoLang

abbrev Link := EStateM CompileError Host

namespace Link

/-- Work in a new directory, of which the place and the path are told. -/
def inScratch {α : Type} (work : Files.Place → String → Link α) : Link α := fun host =>
  match host.newName (Files.Path.ofText host.temporary) with
  | .error fault => .error (.io "<link scratch>" fault) host
  | .ok (place, path) =>
    let clean (host : Host) : Host := { host with files := host.files.removeTree place }
    match work place path { host with files := host.files.addDirectory place } with
    | .ok a host => .ok a (clean host)
    | .error error host => .error error (clean host)

def writeObject (place : Files.Place) (path : String) (object : Bytes) : Link Unit := do
  let complete ← modifyGet fun host =>
    let (complete, files) := host.pour place object host.files
    (complete, { host with files })
  if !complete then throw (.io path .noSpace)

/-- Call the linker. If it made an executable, that is at a place from then on. -/
def callLinker (command : Command) (executable : Files.Place) : Link Unit := do
  modify (·.log ⟨.debug, .linker, s!"running {command.text}"⟩)
  let host ← get
  match host.linker command host.files with
  | .refused fault => throw (.link s!"failed to invoke linker ({command.program}): {fault.text}")
  | .ended status complaint product =>
    if let some bytes := product then
      modify fun host => { host with files := host.files.put executable bytes }
    if status ≠ .code 0 then
      throw (.link s!"{command.program} exited with {status.text}: {Listing.trim complaint}")

def readExecutable (place : Files.Place) (path : String) : Link Bytes := do
  match (← get).files.content? place with
  | none => throw (.io path .notFound)
  | some bytes => return bytes

def executable (entryPoint : Bool) (object : Bytes) : Link Bytes :=
  inScratch fun place path => do
    let objectPath := s!"{path}/program.o"
    let executablePath := s!"{path}/program"
    writeObject (place ++ ["program.o"]) objectPath object
    callLinker (Linker.command entryPoint objectPath executablePath) (place ++ ["program"])
    readExecutable (place ++ ["program"]) executablePath

end Link

end GotoLang
