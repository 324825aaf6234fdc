import GotoLang.Program

/-!
# Constant folding

Passes never move operations: one that is no longer needed becomes a `nop`, and what counts is the
next live operation. A constant and the operation that consumes it are folded into one place if no
transfer enters between them. The flags that tell where transfers go are taken once for a round over
all operations, and rounds are repeated until one of them folds nothing.
-/
namespace GotoLang

/-- The first operation that is not a `nop` among so many from an address on. -/
def Op.nextLiveWithin (ops : Array Op) : Nat → Nat → Option Nat
  | 0, _ => none
  | count + 1, addr =>
    if ops[addr]? = some .nop then nextLiveWithin ops count (addr + 1) else some addr

def Op.nextLive? (ops : Array Op) (addr : Nat) : Option Nat :=
  nextLiveWithin ops (ops.size - addr) addr

def Op.liveCount (ops : Array Op) : Nat :=
  ops.countP (· ≠ .nop)

namespace Fold

/-- No transfer goes to an operation behind `first`, up to and including `last`. -/
def isSealed (targets : Array Bool) (first last : Nat) : Bool :=
  (List.range' (first + 1) (last - first)).all fun addr => !targets.getD addr false

/-- Put one operation into the first place of a window and empty the others. -/
def collapse (ops : Array Op) (first : Nat) (op : Op) (rest : List Nat) : Array Op :=
  rest.foldl (fun ops addr => ops.setIfInBounds addr .nop) (ops.setIfInBounds first op)

def at? (targets : Array Bool) (ops : Array Op) (first : Nat) : Option (Array Op) := do
  let .push a ← ops[first]? | none
  let second ← Op.nextLive? ops (first + 1)
  match ← ops[second]? with
  | .unary op =>
    if isSealed targets first second then collapse ops first (.push (op.eval a)) [second] else none
  | .jumpIf target =>
    if isSealed targets first second then
      collapse ops first (if a != 0 then .jump target else .nop) [second]
    else none
  | .push b =>
    let third ← Op.nextLive? ops (second + 1)
    let .binary op ← ops[third]? | none
    let value ← op.eval? a b
    if isSealed targets first third then collapse ops first (.push value) [second, third] else none
  | _ => none

def round (ops : Array Op) : Array Op × Nat :=
  let targets := Op.targets ops
  (List.range ops.size).foldl (fun (ops, folded) addr =>
    match at? targets ops addr with
    | some ops => (ops, folded + 1)
    | none => (ops, folded)) (ops, 0)

def rounds : Nat → Array Op → Nat → Array Op × Nat
  | 0, ops, folded => (ops, folded)
  | bound + 1, ops, folded =>
    match round ops with
    | (ops, 0) => (ops, folded)
    | (ops, count) => rounds bound ops (folded + count)

end Fold

/-- Fold constants as long as there is something to fold. Each fold leaves fewer live operations, so
there are no more rounds with one than operations. -/
def Op.foldConstants (ops : Array Op) : Array Op × Nat :=
  Fold.rounds (ops.size + 1) ops 0

end GotoLang
