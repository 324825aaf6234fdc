import GotoLang.Numeral
import GotoLang.Program

/-!
# Stack discipline

Every operation that control can reach has one depth of the stack on entry. The depths are found by
following control from the first operation; a program that underflows the stack, reaches an operation
with two depths, leaves the program or still has an unbound transfer on the way is refused.
-/
namespace GotoLang

inductive ProgramFault where
  | noOperations
  | pastEnd (addr : Nat)
  | depthConflict (addr known depth : Nat)
  | unboundTransfer (addr : Nat)
  | stackUnderflow (addr : Nat) (op : Op)
  | lineTable (lines ops : Nat)
  | unknownSlot (addr : Nat) (slot : Slot)
deriving DecidableEq

def ProgramFault.reason : ProgramFault → String
  | noOperations => "program has no operations"
  | pastEnd addr => s!"control reaches address {addr} past the end of the program"
  | depthConflict addr known depth =>
    s!"inconsistent stack depth at {Numeral.addr addr}: {known} vs {depth}"
  | unboundTransfer addr => s!"unpatched control transfer at {Numeral.addr addr}"
  | stackUnderflow addr op => s!"stack underflow at {Numeral.addr addr} ({op.mnemonic})"
  | lineTable lines ops => s!"line table has {lines} entries for {ops} ops"
  | unknownSlot addr slot => s!"op {Numeral.addr addr} uses unknown slot %{slot.toNat}"

namespace Flow

/-- The depth on entry to each operation; nothing where control does not get. -/
abbrev Depths := Array (Option Nat)

abbrev Work := List (Nat × Nat)

/-- Follow control for a number of visits. The fall-through is followed before the target. -/
def follow (ops : Array Op) : Nat → Work → Depths → Except ProgramFault Depths
  | _, [], depths => .ok depths
  | 0, _ :: _, depths => .ok depths
  | visits + 1, (addr, depth) :: work, depths =>
    match ops[addr]? with
    | none => .error (.pastEnd addr)
    | some op =>
      match depths.getD addr none with
      | some known =>
        if known = depth then follow ops visits work depths
        else .error (.depthConflict addr known depth)
      | none =>
        if op.target? = some placeholder then .error (.unboundTransfer addr)
        else if depth < op.pops then .error (.stackUnderflow addr op)
        else
          let after := depth - op.pops + op.pushes
          let reached := (op.successors addr).reverse.map fun next => (next, after)
          follow ops visits (reached ++ work) (depths.setIfInBounds addr (some depth))

end Flow

namespace Program

/-- The depth of the stack on entry to each operation. Every operation is left once and leads to at
most two others, which bounds the visits. -/
def depths (program : Program) : Except ProgramFault Flow.Depths :=
  if program.ops.isEmpty then .error .noOperations
  else
    Flow.follow program.ops (2 * program.ops.size + 1) [(0, 0)]
      (Array.replicate program.ops.size none)

def unknownSlot? (count : Slot) : Nat → List Op → Option ProgramFault
  | _, [] => none
  | addr, op :: ops =>
    match op with
    | .load slot | .store slot =>
      if count ≤ slot then some (.unknownSlot addr slot) else unknownSlot? count (addr + 1) ops
    | _ => unknownSlot? count (addr + 1) ops

/-- Check what executing and compiling rely on: a line for each operation, a variable for each slot,
and stack discipline. -/
def verify (program : Program) : Except ProgramFault Unit :=
  if program.lines.size ≠ program.ops.size then
    .error (.lineTable program.lines.size program.ops.size)
  else
    match unknownSlot? program.slots.size.toUInt32 0 program.ops.toList with
    | some fault => .error fault
    | none => program.depths.map fun _ => ()

end Program

end GotoLang
