import GotoLang.Op

/-!
# Lowered programs

Operations, the source line of each of them, the variables behind the slots, and the labels of the
source with the addresses they mark.
-/
namespace GotoLang

structure Variable where
  name : String
  ty : Ty
deriving DecidableEq

structure Mark where
  name : String
  addr : Addr
deriving DecidableEq

/-- Each operation has a source line. Marks stand in the order of their definition. -/
structure Program where
  ops : Array Op := #[]
  lines : Array Nat := #[]
  slots : Array Variable := #[]
  marks : Array Mark := #[]
deriving DecidableEq

namespace Op

/-- Where control may be after an operation that stands at an address: first the target of a
transfer, then the next operation. -/
def successors (addr : Nat) (op : Op) : List Nat :=
  (op.target?.map UInt32.toNat).toList ++ if op.isTerminator then [] else [addr + 1]

/-- For each address up to the end, whether some transfer goes there. -/
def targets (ops : Array Op) : Array Bool :=
  ops.foldl (fun flags op =>
    match op.target? with
    | some target => flags.setIfInBounds target.toNat true
    | none => flags) (Array.replicate (ops.size + 1) false)

end Op

end GotoLang
