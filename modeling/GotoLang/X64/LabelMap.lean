/-!
# Names by offset

An offset can have several names. Offsets stand in ascending order, and the names of one of them in the order in
which they were added.
-/
namespace GotoLang.X64

structure LabelMap where
  entries : List (Nat × List String) := []
deriving DecidableEq

namespace LabelMap

def insert (offset : Nat) (name : String) : List (Nat × List String) → List (Nat × List String)
  | [] => [(offset, [name])]
  | (other, names) :: rest =>
    if offset < other then (offset, [name]) :: (other, names) :: rest
    else if offset = other then (other, names ++ [name]) :: rest
    else (other, names) :: insert offset name rest

/-- Add a name behind those that an offset has. -/
def add (map : LabelMap) (offset : Nat) (name : String) : LabelMap :=
  ⟨insert offset name map.entries⟩

/-- The first offset that has a name. -/
def offset? (map : LabelMap) (name : String) : Option Nat :=
  (map.entries.find? fun entry => entry.2.contains name).map Prod.fst

def pairs (map : LabelMap) : List (Nat × String) :=
  map.entries.flatMap fun entry => entry.2.map (entry.1, ·)

end LabelMap

end GotoLang.X64
