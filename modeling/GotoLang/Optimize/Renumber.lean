import GotoLang.Program

/-!
# Dropping empty operations

An address becomes the number of live operations before it. So a transfer or a label at an empty
operation moves to the next live one, and one behind the last operation to the new end. An operation
without a source line is dropped with the empty ones.
-/
namespace GotoLang

namespace Renumber

def liveBefore (ops : Array Op) (addr : Nat) : Nat :=
  (ops.toList.take addr).countP (· ≠ .nop)

def addr (ops : Array Op) (old : Addr) : Addr :=
  (liveBefore ops old.toNat).toUInt32

def op (ops : Array Op) (o : Op) : Op :=
  match o.target? with
  | some target => (o.retarget? (addr ops target)).getD o
  | none => o

end Renumber

/-- Drop empty operations and renumber the rest; tells how many there were. -/
def Program.renumber (program : Program) : Program × Nat :=
  let ops := program.ops
  let kept := (ops.zip program.lines).filter fun (op, _) => op ≠ .nop
  ({ program with
      ops := kept.map fun (op, _) => Renumber.op ops op
      lines := kept.map fun (_, line) => line
      marks := program.marks.map fun mark => { mark with addr := Renumber.addr ops mark.addr } },
    ops.size - Renumber.liveBefore ops ops.size)

end GotoLang
