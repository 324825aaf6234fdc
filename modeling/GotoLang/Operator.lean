/-!
# Operators and their meaning on words

Values are signed 64-bit words. Arithmetic wraps around, division truncates toward zero, and a truth
value is the word one or zero, while every word other than zero counts as true. The operators of
expressions and those of the stack machine are the same, and `eval` is their only definition.
-/
namespace GotoLang

/-- A machine word, read as a signed number. -/
abbrev Word := Int64

inductive Cond where
  | eq | ne | lt | le | gt | ge
deriving DecidableEq

namespace Cond

def holds (lhs rhs : Word) : Cond → Bool
  | eq => lhs == rhs
  | ne => lhs != rhs
  | lt => lhs < rhs
  | le => lhs ≤ rhs
  | gt => rhs < lhs
  | ge => rhs ≤ lhs

def symbol : Cond → String
  | eq => "=="
  | ne => "!="
  | lt => "<"
  | le => "<="
  | gt => ">"
  | ge => ">="

def mnemonic : Cond → String
  | eq => "eq"
  | ne => "ne"
  | lt => "lt"
  | le => "le"
  | gt => "gt"
  | ge => "ge"

def all : List Cond := [eq, ne, lt, le, gt, ge]

end Cond

inductive Arith where
  | add | sub | mul | div | rem
deriving DecidableEq

namespace Arith

def eval? (lhs rhs : Word) : Arith → Option Word
  | add => some (lhs + rhs)
  | sub => some (lhs - rhs)
  | mul => some (lhs * rhs)
  | div => if rhs = 0 then none else some (lhs / rhs)
  | rem => if rhs = 0 then none else some (lhs % rhs)

def symbol : Arith → String
  | add => "+"
  | sub => "-"
  | mul => "*"
  | div => "/"
  | rem => "%"

def mnemonic : Arith → String
  | add => "add"
  | sub => "sub"
  | mul => "mul"
  | div => "div"
  | rem => "rem"

end Arith

/-- Connectives; both operands are always evaluated. -/
inductive Logic where
  | and | or
deriving DecidableEq

namespace Logic

def holds (lhs rhs : Word) : Logic → Bool
  | and => lhs != 0 && rhs != 0
  | or => lhs != 0 || rhs != 0

/-- The written form, in expressions and in listings alike. -/
def name : Logic → String
  | and => "and"
  | or => "or"

end Logic

inductive BinaryOp where
  | arith (op : Arith)
  | cmp (cond : Cond)
  | logic (op : Logic)
deriving DecidableEq

namespace BinaryOp

/-- The value of the operator, or nothing when it divides by zero. -/
def eval? (lhs rhs : Word) : BinaryOp → Option Word
  | arith op => op.eval? lhs rhs
  | cmp cond => some (cond.holds lhs rhs).toInt64
  | logic op => some (op.holds lhs rhs).toInt64

def symbol : BinaryOp → String
  | arith op => op.symbol
  | cmp cond => cond.symbol
  | logic op => op.name

end BinaryOp

inductive UnaryOp where
  | neg | not
deriving DecidableEq

namespace UnaryOp

def eval (value : Word) : UnaryOp → Word
  | neg => -value
  | not => (value == 0).toInt64

def symbol : UnaryOp → String
  | neg => "-"
  | not => "not"

def mnemonic : UnaryOp → String
  | neg => "neg"
  | not => "not"

end UnaryOp

end GotoLang
