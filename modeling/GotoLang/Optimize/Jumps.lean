import GotoLang.Optimize.Fold

/-!
# Transfers to transfers, and to the next operation

A transfer that lands on an unconditional jump may go where that jump goes. The search for the final
place is bounded, so a cycle of jumps ends it, and then the transfer stays as it is. A jump over
nothing but `nop`s is dropped.
-/
namespace GotoLang

namespace Jumps

/-- Follow unconditional jumps for a number of hops; `target` is the answer if that leads nowhere. -/
def destinationWithin (ops : Array Op) (target : Addr) : Nat → Nat → Addr
  | 0, _ => target
  | hops + 1, current =>
    match Op.nextLive? ops current with
    | none => target
    | some live =>
      match ops[live]? with
      | some (.jump next) =>
        if next.toNat ≠ live then destinationWithin ops target hops next.toNat else live.toUInt32
      | _ => live.toUInt32

def destination (ops : Array Op) (target : Addr) : Addr :=
  destinationWithin ops target (ops.size + 1) target.toNat

/-- Shorten the transfer at an address, if it does not get there directly. -/
def threadAt? (ops : Array Op) (addr : Nat) : Option (Array Op) := do
  let op ← ops[addr]?
  let target ← op.target?
  let final := destination ops target
  let direct := (Op.nextLive? ops target.toNat).map Nat.toUInt32
  if final ≠ target ∧ some final ≠ direct then
    return ops.setIfInBounds addr (← op.retarget? final)
  else none

def bypassAt? (ops : Array Op) (addr : Nat) : Option (Array Op) := do
  let .jump target ← ops[addr]? | none
  let next ← Op.nextLive? ops (addr + 1)
  if Op.nextLive? ops target.toNat = some next then ops.setIfInBounds addr .nop else none

/-- Try a change at one address after the other; tells how often it was made. -/
def sweep (change? : Array Op → Nat → Option (Array Op)) (ops : Array Op) : Array Op × Nat :=
  (List.range ops.size).foldl (fun (ops, count) addr =>
    match change? ops addr with
    | some ops => (ops, count + 1)
    | none => (ops, count)) (ops, 0)

end Jumps

def Op.threadJumps (ops : Array Op) : Array Op × Nat :=
  Jumps.sweep Jumps.threadAt? ops

def Op.bypassJumps (ops : Array Op) : Array Op × Nat :=
  Jumps.sweep Jumps.bypassAt? ops

end GotoLang
