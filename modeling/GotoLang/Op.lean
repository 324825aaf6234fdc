import GotoLang.Operator
import GotoLang.Ty

/-!
# Operations of the stack machine

A lowered program is a flat sequence of operations on a stack of words and a table of slots. Transfers
of control name the index of the operation they continue with. While a label is not known yet, its
transfers carry a placeholder.
-/
namespace GotoLang

abbrev Addr := UInt32

abbrev Slot := UInt32

/-- The target of a transfer whose label is not bound yet: the largest address. -/
def placeholder : Addr := 4294967295

inductive Op where
  | push (value : Word)
  | load (slot : Slot)
  | store (slot : Slot)
  | unary (op : UnaryOp)
  | binary (op : BinaryOp)
  | jump (target : Addr)
  | jumpIf (target : Addr)
  | print (ty : Ty)
  | exit
  | nop
deriving DecidableEq

namespace Op

def target? : Op → Option Addr
  | jump target | jumpIf target => some target
  | _ => none

/-- The same transfer to another place; nothing for other operations. -/
def retarget? (target : Addr) : Op → Option Op
  | jump _ => some (jump target)
  | jumpIf _ => some (jumpIf target)
  | _ => none

def pops : Op → Nat
  | push _ | load _ | jump _ | nop => 0
  | store _ | unary _ | jumpIf _ | print _ | exit => 1
  | binary _ => 2

def pushes : Op → Nat
  | push _ | load _ | unary _ | binary _ => 1
  | store _ | jump _ | jumpIf _ | print _ | exit | nop => 0

def isTerminator : Op → Bool
  | jump _ | exit => true
  | _ => false

/-- The name of the operation without its operands; all comparisons share one. -/
def mnemonic : Op → String
  | push _ => "push"
  | load _ => "load"
  | store _ => "store"
  | unary op => op.mnemonic
  | binary (.arith op) => op.mnemonic
  | binary (.cmp _) => "cmp"
  | binary (.logic op) => op.name
  | jump _ => "jmp"
  | jumpIf _ => "jmp.if"
  | print ty => s!"print.{ty.text}"
  | exit => "exit"
  | nop => "nop"

end Op

end GotoLang
