import GotoLang.X64.Instruction

/-!
# Sizes of branches

Branches start out longer than any of their forms and are shrunk in rounds over the whole code, five at
the most. A round goes through the instructions in order. It knows the new positions of those it has
passed, and the positions of the others from the round before; what it has saved so far is taken off
the distance to a target further on. A branch that fits into the short form takes it for good, and one
that is far from fitting is not tried again.

Targets are indices of instructions.
-/
namespace GotoLang.X64

namespace Layout

/-- What is known about an instruction between rounds. One that is settled has its final size. -/
structure Piece where
  position : Nat
  size : Nat
  settled : Bool
deriving DecidableEq

def startSize : Instr Nat → Nat
  | .jump _ => 6
  | .jumpIf _ _ => 8
  | .call _ => 6
  | .leaLabel _ _ => 8
  | instr => instr.size false

def start : Nat → List (Instr Nat) → List Piece
  | _, [] => []
  | position, instr :: rest =>
    let size := startSize instr
    ⟨position, size, instr.target?.isNone⟩ :: start (position + size) rest

/-- The size of a branch with a near form of `near` bytes that reaches over a distance, and whether
that is final. -/
def branchSize (near : Nat) (distance : Int) : Nat × Bool :=
  if -128 ≤ distance ∧ distance ≤ 127 then (2, true)
  else (near, distance < -128 * 15 ∨ 127 * 15 < distance)

/-- The distance from a short branch at a position to its target. -/
def distance (pieces : Array Piece) (position gained target : Nat) : Int :=
  let targetPosition := (pieces[target]?.map Piece.position).getD 0
  let distance : Int := targetPosition - (position + 2)
  if 0 ≤ distance then distance - gained else distance

def shrink (pieces : Array Piece) (position gained : Nat) (instr : Instr Nat) : Nat × Bool :=
  match instr with
  | .jump target => branchSize 5 (distance pieces position gained target)
  | .jumpIf _ target => branchSize 6 (distance pieces position gained target)
  | .call _ => (5, true)
  | .leaLabel _ _ => (7, true)
  | other => (other.size false, true)

structure Pass where
  pieces : Array Piece
  position : Nat := 0
  gained : Nat := 0
deriving DecidableEq

def visit : Pass → Nat → Instr Nat → Pass
  | ⟨pieces, position, gained⟩, index, instr =>
    match pieces[index]? with
    | none => ⟨pieces, position, gained⟩
    | some piece =>
      let pieces := pieces.setIfInBounds index { piece with position }
      let (size, settled) :=
        if piece.settled then (piece.size, true) else shrink pieces position gained instr
      ⟨pieces.setIfInBounds index ⟨position, size, settled⟩, position + size,
        gained + (piece.size - size)⟩

def round (code : List (Instr Nat)) (pieces : Array Piece) : Pass :=
  code.zipIdx.foldl (fun pass (instr, index) => visit pass index instr) { pieces }

def rounds (code : List (Instr Nat)) : Nat → Array Piece → Array Piece
  | 0, pieces => pieces
  | bound + 1, pieces =>
    let pass := round code pieces
    if pass.gained = 0 then pass.pieces else rounds code bound pass.pieces

def sizes (code : List (Instr Nat)) : List Nat :=
  ((rounds code 5 (start 0 code).toArray).map Piece.size).toList

/-- The positions of instructions of the given sizes, from a position on. -/
def offsets : Nat → List Nat → List Nat
  | _, [] => []
  | position, size :: rest => position :: offsets (position + size) rest

end Layout

end GotoLang.X64
