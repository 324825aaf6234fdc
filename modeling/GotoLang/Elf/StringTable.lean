import GotoLang.Sink

/-!
# String tables

Strings one after the other, each ended by a zero byte. A string that is a tail of another one shares
its bytes. To find these, the strings are ordered by their bytes from the last to the first, the larger
one first, so that a tail comes behind the strings it ends.
-/
namespace GotoLang.Elf

structure StringTable where
  bytes : List UInt8 := [0]
  offsets : List (String × Nat) := []
  last : List UInt8 := []

namespace StringTable

/-- Whether the first of two lists of bytes comes first in descending order. -/
def descending : List UInt8 → List UInt8 → Bool
  | _, [] => true
  | [], _ :: _ => false
  | a :: as, b :: bs => if a = b then descending as bs else b < a

def sorted (strings : List String) : List String :=
  let key (s : String) := (Bytes.ofText s).toList.reverse
  let keyed := (strings.filter (· ≠ "")).eraseDups.map fun s => (key s, s)
  (keyed.mergeSort fun a b => descending a.1 b.1).map Prod.snd

def add (table : StringTable) (string : String) : StringTable :=
  let bytes := (Bytes.ofText string).toList
  if bytes.isSuffixOf table.last then
    { table with offsets := (string, table.bytes.length - 1 - bytes.length) :: table.offsets }
  else
    { bytes := table.bytes ++ bytes ++ [0]
      offsets := (string, table.bytes.length) :: table.offsets
      last := bytes }

def ofStrings (strings : List String) : StringTable :=
  (sorted strings).foldl add {}

/-- Where a string starts; the empty one is at the start of the table. -/
def offset (table : StringTable) (string : String) : Nat :=
  (table.offsets.lookup string).getD 0

end StringTable

end GotoLang.Elf
