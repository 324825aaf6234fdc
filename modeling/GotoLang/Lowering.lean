import GotoLang.Ast
import GotoLang.Session
import GotoLang.SymbolTable

/-!
# From syntax trees to programs

Statements are visited once, in order, and checked while their operations are emitted. An expression
leaves its value on the stack. Behind the last statement stand two operations that exit with status
zero, so a label at the end of the text has something to mark.
-/
namespace GotoLang

inductive LoweringError where
  | typing (error : TypingError)
  | emission (error : EmissionError)
deriving DecidableEq

def LoweringError.message : LoweringError → String
  | typing error => error.message
  | emission error => error.message

namespace Lowering

structure State where
  session : Session
  symbols : SymbolTable := {}

abbrev Lower := EStateM LoweringError State

def emission {α : Type} (action : Emit α) : Lower α
  | ⟨session, symbols⟩ =>
    match action session with
    | .ok value session => .ok value ⟨session, symbols⟩
    | .error e session => .error (.emission e) ⟨session, symbols⟩

def check {α : Type} (outcome : Except TypingError α) : Lower α :=
  match outcome with
  | .ok value => pure value
  | .error e => throw (.typing e)

def emit (op : Op) (span : Span) : Lower Unit := do
  discard <| emission (Session.emit op span.line)

def lookup (name : String) (span : Span) : Lower Symbol := do
  check ((← get).symbols.lookup name span)

def naming {α : Type} (action : EStateM TypingError SymbolTable α) : Lower α
  | ⟨session, symbols⟩ =>
    match action symbols with
    | .ok value symbols => .ok value ⟨session, symbols⟩
    | .error e symbols => .error (.typing e) ⟨session, symbols⟩

def declare (name : String) (ty : Ty) (span : Span) : Lower Symbol :=
  naming (SymbolTable.declare name ty span)

/-- The type of an operator applied to operands of these types: the left one is checked first. -/
def binaryTy (op : BinaryOp) (lhs rhs : Ty) (lhsSpan rhsSpan span : Span) : Except TypingError Ty :=
  match op.operandTy? with
  | some operand => do
    Ty.expect s!"operand of `{op.symbol}`" operand lhs lhsSpan
    Ty.expect s!"operand of `{op.symbol}`" operand rhs rhsSpan
    return op.resultTy
  | none => if lhs = rhs then .ok op.resultTy else .error (.operandMismatch op lhs rhs span)

/-- Emit what leaves the value of an expression on the stack, and tell its type. -/
def expr : Expr → Lower Ty
  | .int value span => do
    emit (.push value) span
    return .int
  | .bool value span => do
    emit (.push value.toInt64) span
    return .bool
  | .var name span => do
    let symbol ← lookup name span
    emit (.load symbol.slot) span
    return symbol.ty
  | .unary op operand span => do
    let ty ← expr operand
    check (Ty.expect s!"operand of `{op.symbol}`" op.ty ty operand.span)
    emit (.unary op) span
    return op.ty
  | .binary op lhs rhs span => do
    let lhsTy ← expr lhs
    let rhsTy ← expr rhs
    let ty ← check (binaryTy op lhsTy rhsTy lhs.span rhs.span span)
    emit (.binary op) span
    return ty

/-- A declared variable is not visible in its own initial value; the target of an assignment is
looked up before its value is visited. -/
def stmt : Stmt → Lower Unit
  | .label name span => discard <| emission (Session.bind name span)
  | .declare name value span => do
    let ty ← expr value
    let symbol ← declare name ty span
    emit (.store symbol.slot) span
  | .assign name value span => do
    let symbol ← lookup name span
    let ty ← expr value
    check (Ty.expect s!"assignment to `{name}`" symbol.ty ty value.span)
    emit (.store symbol.slot) span
  | .print value span => do
    let ty ← expr value
    emit (.print ty) span
  | .goto label span => discard <| emission (Session.emitTransfer .jump label span)
  | .ifGoto cond label span => do
    let ty ← expr cond
    check (Ty.expect "`if` condition" .bool ty cond.span)
    discard <| emission (Session.emitTransfer .jumpIf label span)
  | .exit value span => do
    let ty ← expr value
    check (Ty.expect "`exit` status" .int ty value.span)
    emit .exit span

def stmts : List Stmt → Lower Unit
  | [] => pure ()
  | s :: rest => do
    stmt s
    stmts rest

def program (ast : Ast) : Lower Program := do
  stmts ast.stmts
  emit (.push 0) ast.stop
  emit .exit ast.stop
  emission (Session.finish (← get).symbols.slots)

end Lowering

/-- Lower a program in a session; the session that results is returned in any case. -/
def Ast.lower (ast : Ast) (session : Session) : Except LoweringError Program × Session :=
  match Lowering.program ast { session } with
  | .ok program state => (.ok program, state.session)
  | .error e state => (.error e, state.session)

end GotoLang
