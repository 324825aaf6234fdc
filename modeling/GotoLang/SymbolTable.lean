import GotoLang.Dictionary
import GotoLang.Program
import GotoLang.Span

/-!
# Variables and type rules

All variables share one scope. A declaration takes the next slot; a second declaration of a name is
refused, and every use needs an earlier declaration.
-/
namespace GotoLang

inductive TypingError where
  | unresolved (name : String) (span : Span)
  | mismatch (context : String) (expected found : Ty) (span : Span)
  | operandMismatch (op : BinaryOp) (lhs rhs : Ty) (span : Span)
  | redeclared (name : String) (first span : Span)
deriving DecidableEq

def TypingError.message : TypingError → String
  | unresolved name span => s!"{span.text}: unresolved identifier `{name}`"
  | mismatch context expected found span =>
    s!"{span.text}: type mismatch in {context}: expected {expected.text}, found {found.text}"
  | operandMismatch op lhs rhs span =>
    s!"{span.text}: operands of `{op.symbol}` have different types ({lhs.text} and {rhs.text})"
  | redeclared name first span =>
    s!"{span.text}: `{name}` is already declared (first at {first.text})"

structure Symbol where
  slot : Slot
  ty : Ty
  declaredAt : Span
deriving DecidableEq

/-- The declared variables by their names, and what stands in each slot. -/
structure SymbolTable where
  symbols : Dictionary Symbol := {}
  slots : Array Variable := #[]
deriving DecidableEq

namespace SymbolTable

def size (table : SymbolTable) : Nat :=
  table.slots.size

/-- Declare a variable in the next free slot. -/
def declare (name : String) (ty : Ty) (span : Span) : EStateM TypingError SymbolTable Symbol := do
  if let some earlier := (← get).symbols.get? name then
    throw (.redeclared name earlier.declaredAt span)
  let symbol := { slot := (← get).size.toUInt32, ty, declaredAt := span }
  modify fun table => { table with symbols := table.symbols.insert name symbol }
  modify fun table => { table with slots := table.slots.push ⟨name, ty⟩ }
  return symbol

def lookup (table : SymbolTable) (name : String) (span : Span) : Except TypingError Symbol :=
  match table.symbols.get? name with
  | some symbol => .ok symbol
  | none => .error (.unresolved name span)

end SymbolTable

def Ty.expect (context : String) (expected found : Ty) (span : Span) : Except TypingError Unit :=
  if expected = found then .ok () else .error (.mismatch context expected found span)

def UnaryOp.ty : UnaryOp → Ty
  | neg => .int
  | not => .bool

/-- The operand type of an operator; nothing where any two equal types will do. -/
def BinaryOp.operandTy? : BinaryOp → Option Ty
  | arith _ => some .int
  | cmp .eq | cmp .ne => none
  | cmp _ => some .int
  | logic _ => some .bool

def BinaryOp.resultTy : BinaryOp → Ty
  | arith _ => .int
  | cmp _ | logic _ => .bool

end GotoLang
