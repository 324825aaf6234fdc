import GotoLang.Program
import GotoLang.Span

/-!
# The buffer that operations are emitted into

Operations are appended in order, each with its source line, up to a capacity. Only the target of a
transfer can be changed afterwards. The address of an operation is its index as a 32-bit number.
-/
namespace GotoLang

inductive EmissionError where
  | duplicateLabel (label : String) (first second : Span)
  | undefinedLabel (label : String) (span : Span)
  | tooManyReferences (capacity : Nat)
  | bufferFull (capacity : Nat)
  | notATransfer (slot : Addr)
deriving DecidableEq

def EmissionError.message : EmissionError → String
  | duplicateLabel label first second =>
    s!"{second.text}: duplicate label `{label}` (first defined at {first.text})"
  | undefinedLabel label span => s!"{span.text}: undefined label `{label}`"
  | tooManyReferences capacity => s!"too many unresolved forward references (limit {capacity})"
  | bufferFull capacity => s!"emission buffer is full (limit {capacity} operations)"
  | notATransfer slot => s!"slot {slot.toNat} does not hold a control transfer"

structure EmissionBuffer where
  ops : Array Op := #[]
  lines : Array Nat := #[]
  capacity : Option Nat := none
deriving DecidableEq

namespace EmissionBuffer

/-- The largest number of operations. Without a capacity it keeps every address below the
placeholder. -/
def limit (buffer : EmissionBuffer) : Nat :=
  buffer.capacity.getD placeholder.toNat

def next (buffer : EmissionBuffer) : Addr :=
  buffer.ops.size.toUInt32

def isFull (buffer : EmissionBuffer) : Bool :=
  buffer.limit ≤ buffer.ops.size

/-- Append an operation, whether there is room or not. -/
def push (buffer : EmissionBuffer) (op : Op) (line : Nat) : EmissionBuffer :=
  { buffer with ops := buffer.ops.push op, lines := buffer.lines.push line }

def emit (op : Op) (line : Nat) : EStateM EmissionError EmissionBuffer Addr := fun buffer =>
  if buffer.isFull then .error (.bufferFull buffer.limit) buffer
  else
    let addr := buffer.next
    .ok addr (buffer.push op line)

def get? (buffer : EmissionBuffer) (addr : Addr) : Option Op :=
  buffer.ops[addr.toNat]?

/-- Send the transfer at an address elsewhere. -/
def patch (buffer : EmissionBuffer) (addr target : Addr) : Except EmissionError EmissionBuffer :=
  match (buffer.get? addr).bind (Op.retarget? target) with
  | some op => .ok { buffer with ops := buffer.ops.setIfInBounds addr.toNat op }
  | none => .error (.notATransfer addr)

end EmissionBuffer

end GotoLang
