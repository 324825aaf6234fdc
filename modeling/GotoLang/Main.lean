import GotoLang.Tool

/-!
# The executable

The files that a command line mentions are loaded, the command runs on them, and what it changed is
stored again. Objects are not linked here.
-/
namespace GotoLang

def placeText (place : Files.Place) : String :=
  (Files.Path.mk (place.head? = some Files.root) (place.filter (· ≠ Files.root)) false).text

def mentioned (arguments : List String) : List String :=
  match CommandLine.parse arguments with
  | .error _ => []
  | .ok command =>
    command.config.input :: command.config.output.toList ++
      (command.config.graph.map GraphConfig.path).toList

/-- Load a file and note that its directory exists. -/
def load (files : Files) (text : String) : IO Files := do
  let directory := Files.parent (Files.Path.ofText text)
  let found ← try
      discard <| IO.FS.realPath directory.text
      pure true
    catch _ => pure false
  let start := if directory.absolute then [Files.root] else []
  let place := directory.steps.foldl Files.advance start
  let files := if found then { files with directories := place :: files.directories } else files
  match files.locate (Files.Path.ofText text) with
  | .error _ => return files
  | .ok place =>
    try return files.put place (← IO.FS.readBinFile text).data
    catch _ => return files

/-- Store the files that differ from before. -/
def save (before after : Files) : IO Unit :=
  after.entries.forM fun (place, content) =>
    if before.content? place = some content then pure ()
    else IO.FS.writeBinFile (placeText place) ⟨content⟩

end GotoLang

open GotoLang in
def main (arguments : List String) : IO UInt32 := do
  let files ← (mentioned arguments).foldlM load { directories := [[Files.root, "tmp"]] }
  let host : Host :=
    { files
      patience := 4611686018427387904
      linker := fun _ _ => .refused .notFound }
  let (code, host) := Tool.run arguments host
  save files host.files
  (← IO.getStdout).write ⟨host.out.bytes⟩
  (← IO.getStderr).write ⟨host.err.bytes⟩
  return code.toUInt32
