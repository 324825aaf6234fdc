import GotoLang.Operator
import GotoLang.Span

/-!
# Syntax trees

A program is a list of statements in the order they are written. Each node carries one position: that
of its operator, or of its first token when it has none.
-/
namespace GotoLang

inductive Expr where
  | int (value : Word) (span : Span)
  | bool (value : Bool) (span : Span)
  | var (name : String) (span : Span)
  | unary (op : UnaryOp) (operand : Expr) (span : Span)
  | binary (op : BinaryOp) (lhs rhs : Expr) (span : Span)
deriving DecidableEq

def Expr.span : Expr → Span
  | int _ span | bool _ span | var _ span | unary _ _ span | binary _ _ _ span => span

inductive Stmt where
  | label (name : String) (span : Span)
  | declare (name : String) (value : Expr) (span : Span)
  | assign (name : String) (value : Expr) (span : Span)
  | print (value : Expr) (span : Span)
  | goto (label : String) (span : Span)
  | ifGoto (cond : Expr) (label : String) (span : Span)
  | exit (value : Expr) (span : Span)
deriving DecidableEq

/-- A whole program; `stop` is the position behind its last token and what follows it. -/
structure Ast where
  stmts : List Stmt
  stop : Span
deriving DecidableEq

end GotoLang
