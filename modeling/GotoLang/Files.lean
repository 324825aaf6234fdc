import GotoLang.IoFault
import GotoLang.Sink

/-!
# Files

A map from places to contents. A path is text; the place it leads to is found step by step from the
working directory or from the root, and every step but the last has to lead to a directory. Directories
are the places that something lies below, and those that are declared.
-/
namespace GotoLang

namespace Files

/-- The steps from the working directory to a place. The steps to a place outside of it begin with the
root or with steps upwards. -/
abbrev Place := List String

def root : String := "/"

def separator : Char := '/'

def here : String := "."

def up : String := ".."

/-- A path as it is written; there may be a slash at its end. -/
structure Path where
  absolute : Bool
  steps : List String
  slash : Bool
deriving DecidableEq

def Path.ofText (text : String) : Path :=
  { absolute := text.toList.head? = some separator
    steps := ((text.toList.splitOn separator).map String.ofList).filter (· ≠ "")
    slash := text.toList.getLast? = some separator }

/-- The last name of a path, if it names something in a directory. -/
def Path.name? (path : Path) : Option String :=
  match (path.steps.filter (· ≠ here)).getLast? with
  | some step => if step = up then none else some step
  | none => none

/-- Whether the last step of a path does not name an entry of a directory. -/
def Path.isSpecial (path : Path) : Bool :=
  match path.steps.getLast? with
  | some step => step = here || step = up
  | none => true

def advance (place : Place) (step : String) : Place :=
  if step = here then place
  else if step = up then
    match place.getLast? with
    | none => [up]
    | some last =>
      if last = up then place ++ [up] else if last = root then place else place.dropLast
  else place ++ [step]

end Files

structure Files where
  entries : List (Files.Place × Bytes) := []
  directories : List Files.Place := []
deriving DecidableEq

namespace Files

def content? (files : Files) (place : Place) : Option Bytes :=
  files.entries.lookup place

def isDirectory (files : Files) (place : Place) : Bool :=
  place.all (· = up) || place = [root] || files.directories.any (place.isPrefixOf ·) ||
    files.entries.any fun (other, _) => place.isPrefixOf other && place ≠ other

def put (files : Files) (place : Place) (content : Bytes) : Files :=
  { files with entries := set files.entries }
where
  set : List (Place × Bytes) → List (Place × Bytes)
    | [] => [(place, content)]
    | (other, old) :: rest =>
      if other = place then (other, content) :: rest else (other, old) :: set rest

def remove (files : Files) (place : Place) : Files :=
  { files with entries := files.entries.filter (·.1 ≠ place) }

def noDirectory (files : Files) (place : Place) : IoFault :=
  if (files.content? place).isSome then .notADirectory else .notFound

/-- Follow steps; each one leaves from a directory. -/
def walk (files : Files) : Place → List String → Except IoFault Place
  | place, [] => .ok place
  | place, step :: rest =>
    if files.isDirectory place then walk files (advance place step) rest
    else .error (files.noDirectory place)

/-- The place that a path leads to, whether there is something or not. -/
def locate (files : Files) (path : Path) : Except IoFault Place :=
  if !path.absolute && path.steps.isEmpty then .error .notFound
  else files.walk (if path.absolute then [root] else []) path.steps

def read (files : Files) (text : String) : Except IoFault Bytes := do
  let path := Path.ofText text
  let place ← files.locate path
  if files.isDirectory place then throw .isADirectory
  match files.content? place with
  | none => throw .notFound
  | some content => if path.slash then throw .notADirectory else return content

/-- Make an empty file, or empty the file that is there, and tell its place. -/
def create (files : Files) (text : String) : Except IoFault (Place × Files) := do
  let path := Path.ofText text
  let place ← files.locate path
  if path.isSpecial || path.slash || files.isDirectory place then throw .isADirectory
  return (place, files.put place #[])

def parent (path : Path) : Path :=
  let steps := (path.steps.filter (· ≠ here)).dropLast
  { path with steps := if steps.isEmpty && !path.absolute then [here] else steps }

def Path.text (path : Path) : String :=
  (if path.absolute then root else "") ++ String.intercalate root path.steps

def directory (files : Files) (path : Path) : Except IoFault Place := do
  let place ← files.locate path
  if files.isDirectory place then return place else throw (files.noDirectory place)

def isFree (files : Files) (place : Place) : Bool :=
  (files.content? place).isNone && !files.isDirectory place

def addDirectory (files : Files) (place : Place) : Files :=
  { files with directories := place :: files.directories }

/-- Delete a directory with everything below. -/
def removeTree (files : Files) (place : Place) : Files :=
  { entries := files.entries.filter fun (other, _) => !place.isPrefixOf other
    directories := files.directories.filter fun other => !place.isPrefixOf other }

/-- Move a file to the place that a path leads to, in the place of the file that may be there. -/
def persist (files : Files) (scratch : Place) (text : String) : Except IoFault Files := do
  let path := Path.ofText text
  let place ← files.locate path
  if path.isSpecial then throw .busy
  if path.slash then throw .notADirectory
  if files.isDirectory place then throw .isADirectory
  match files.content? scratch with
  | none => throw .notFound
  | some content => return (files.remove scratch).put place content

end Files

end GotoLang
