import GotoLang.Ast
import GotoLang.Sink
import GotoLang.SymbolTable
import GotoLang.Proofs.Execution

/-!
# The meaning of source programs

Statements run one after the other on a store that gives every variable a word, zero at first. Control
goes on behind a label, wherever the label stands. Expressions are evaluated from left to right, with
both operands of a connective, and arithmetic is that of the integers, wrapped around to 64 bits.

A program that jumps to a label it does not define, or prints what has no type, has no meaning.
-/
namespace GotoLang

/-- The integer that an operation gives before it is wrapped; quotients are rounded toward zero. -/
def Arith.integer? (lhs rhs : Int) : Arith → Option Int
  | add => some (lhs + rhs)
  | sub => some (lhs - rhs)
  | mul => some (lhs * rhs)
  | div => if rhs = 0 then none else some (lhs.tdiv rhs)
  | rem => if rhs = 0 then none else some (lhs.tmod rhs)

def Cond.relates (lhs rhs : Int) : Cond → Bool
  | eq => lhs = rhs
  | ne => lhs ≠ rhs
  | lt => lhs < rhs
  | le => lhs ≤ rhs
  | gt => lhs > rhs
  | ge => lhs ≥ rhs

namespace Source

/-- The values of the variables. -/
abbrev Store := String → Word

/-- The types of the declared variables. -/
abbrev Scope := String → Option Ty

def truth (b : Bool) : Word := if b then 1 else 0

def binary? (lhs rhs : Word) : BinaryOp → Option Word
  | .arith op => (op.integer? lhs.toInt rhs.toInt).map Int64.ofInt
  | .cmp cond => some (truth (cond.relates lhs.toInt rhs.toInt))
  | .logic .and => some (truth (lhs ≠ 0 ∧ rhs ≠ 0))
  | .logic .or => some (truth (lhs ≠ 0 ∨ rhs ≠ 0))

def unary (value : Word) : UnaryOp → Word
  | .neg => Int64.ofInt (-value.toInt)
  | .not => truth (value = 0)

/-- Arithmetic and ordering take integers, connectives take truth values, and what is tested for
equality may be of any one type. -/
def accepts (lhs rhs : Ty) : BinaryOp → Bool
  | .arith _ => lhs = .int ∧ rhs = .int
  | .cmp .eq | .cmp .ne => lhs = rhs
  | .cmp _ => lhs = .int ∧ rhs = .int
  | .logic _ => lhs = .bool ∧ rhs = .bool

end Source

open Source

namespace Expr

/-- The value of an expression; nothing if it divides by zero. -/
def eval? (store : Store) : Expr → Option Word
  | int value _ => some value
  | bool value _ => some (truth value)
  | var name _ => some (store name)
  | unary op operand _ => (operand.eval? store).map fun value => Source.unary value op
  | binary op lhs rhs _ =>
    (lhs.eval? store).bind fun a => (rhs.eval? store).bind fun b => binary? a b op

/-- The static type of an expression, if the type rules give it one. -/
def ty? (scope : Scope) : Expr → Option Ty
  | int _ _ => some .int
  | bool _ _ => some .bool
  | var name _ => scope name
  | unary op operand _ => if operand.ty? scope = some op.ty then some op.ty else none
  | binary op lhs rhs _ =>
    (lhs.ty? scope).bind fun a => (rhs.ty? scope).bind fun b =>
      if accepts a b op then some op.resultTy else none

end Expr

namespace Source

/-- The scope behind a statement. -/
def widen (scope : Scope) : Stmt → Scope
  | .declare name value _ => fun other => if other = name then value.ty? scope else scope other
  | _ => scope

/-- The variables that a program declares. -/
def scope (program : List Stmt) : Scope :=
  program.foldl widen fun _ => none

/-- Where a statement may go on, other than at the next one. -/
def destination? : Stmt → Option String
  | .goto label _ => some label
  | .ifGoto _ label _ => some label
  | _ => none

/-- The type rules for statements. -/
def Typed (scope : Scope) : Stmt → Prop
  | .label _ _ => True
  | .declare name value _ => ∃ ty, value.ty? scope = some ty ∧ scope name = some ty
  | .assign name value _ => ∃ ty, value.ty? scope = some ty ∧ scope name = some ty
  | .print value _ => ∃ ty, value.ty? scope = some ty
  | .goto _ _ => True
  | .ifGoto cond _ _ => cond.ty? scope = some .bool
  | .exit value _ => value.ty? scope = some .int

/-- What stands behind the definition of a label. -/
def after? (label : String) : List Stmt → Option (List Stmt)
  | [] => none
  | .label name _ :: rest => if name = label then some rest else after? label rest
  | _ :: rest => after? label rest

structure State where
  /-- The statements from the next one on. -/
  rest : List Stmt
  store : Store := fun _ => 0
  out : Bytes := #[]
  err : Bytes := #[]

inductive Result where
  | exited (status : Word) (out err : Bytes)
  | meaningless

/-- What a program prints for a value. -/
def text (value : Word) : Ty → String
  | .int => toString value.toInt ++ "\n"
  | .bool => (if value ≠ 0 then "true" else "false") ++ "\n"

namespace State

def exit (state : State) (status : Word) : Transition State Result :=
  .stop (.exited status state.out state.err)

/-- Stop because of a division by zero. -/
def trap (state : State) : Transition State Result :=
  .stop (.exited 101 state.out (state.err ++ Bytes.ofText "runtime error: division by zero\n"))

/-- Go on with the value of an expression. -/
def evaluate (state : State) (value : Expr) (use : Word → Transition State Result) :
    Transition State Result :=
  (value.eval? state.store).elim state.trap use

def assign (state : State) (name : String) (value : Word) : State :=
  { state with store := fun other => if other = name then value else state.store other }

def goto (state : State) (program : List Stmt) (label : String) : Transition State Result :=
  (after? label program).elim (.stop .meaningless) fun rest => .next { state with rest }

def print (state : State) (value : Word) (ty : Option Ty) : Transition State Result :=
  ty.elim (.stop .meaningless) fun ty =>
    .next { state with out := state.out ++ Bytes.ofText (text value ty) }

/-- Carry out one statement of a program; the state is already behind it. -/
def perform (program : List Stmt) (state : State) : Stmt → Transition State Result
  | .label _ _ => .next state
  | .declare name value _ => state.evaluate value fun v => .next (state.assign name v)
  | .assign name value _ => state.evaluate value fun v => .next (state.assign name v)
  | .print value _ => state.evaluate value fun v => state.print v (value.ty? (scope program))
  | .goto label _ => state.goto program label
  | .ifGoto cond label _ =>
    state.evaluate cond fun v => if v ≠ 0 then state.goto program label else .next state
  | .exit value _ => state.evaluate value state.exit

/-- Falling off the end is an exit with status zero. -/
def step (program : List Stmt) (state : State) : Transition State Result :=
  match state.rest with
  | [] => state.exit 0
  | stmt :: rest => perform program { state with rest } stmt

end State

end Source

theorem Source.truth_eq (b : Bool) : truth b = b.toInt64 := by
  cases b <;> rfl

theorem Source.toInt_eq_zero (value : Word) : value.toInt = 0 ↔ value = 0 := by
  rw [← Int64.toInt_zero, Int64.toInt_inj]

/-- The words compute as the integers do, up to wrapping. -/
theorem Arith.eval?_eq (op : Arith) (lhs rhs : Word) :
    op.eval? lhs rhs = (op.integer? lhs.toInt rhs.toInt).map Int64.ofInt := by
  cases op with
  | add => simp [eval?, integer?, Int64.ofInt_add]
  | sub => simp [eval?, integer?, Int64.ofInt_sub]
  | mul => simp [eval?, integer?, Int64.ofInt_mul]
  | div =>
      simp only [eval?, integer?, toInt_eq_zero]
      split
      · rfl
      · rw [Option.map_some, Int64.ofInt_tdiv (Int64.minValue_le_toInt lhs) (Int64.toInt_le lhs)
          (Int64.minValue_le_toInt rhs) (Int64.toInt_le rhs), Int64.ofInt_toInt, Int64.ofInt_toInt]
  | rem =>
      simp only [eval?, integer?, toInt_eq_zero]
      split
      · rfl
      · rw [Option.map_some, Int64.ofInt_tmod (Int64.minValue_le_toInt lhs) (Int64.toInt_le lhs)
          (Int64.minValue_le_toInt rhs) (Int64.toInt_le rhs), Int64.ofInt_toInt, Int64.ofInt_toInt]

theorem Cond.holds_eq (cond : Cond) (lhs rhs : Word) :
    cond.holds lhs rhs = cond.relates lhs.toInt rhs.toInt := by
  cases cond with
  | eq => rw [holds, relates, Bool.eq_iff_iff]; simp [Int64.toInt_inj]
  | ne => rw [holds, relates, Bool.eq_iff_iff]; simp [Int64.toInt_inj]
  | lt => simp [holds, relates, Int64.lt_iff_toInt_lt]
  | le => simp [holds, relates, Int64.le_iff_toInt_le]
  | gt => simp [holds, relates, Int64.lt_iff_toInt_lt]
  | ge => simp [holds, relates, Int64.le_iff_toInt_le]

theorem Logic.holds_eq (op : Logic) (lhs rhs : Word) :
    some (op.holds lhs rhs).toInt64 = binary? lhs rhs (.logic op) := by
  cases op <;> simp [binary?, truth_eq, holds, bne, Bool.beq_eq_decide_eq]

/-- The machine's operators have the meaning of the source's. -/
theorem BinaryOp.eval?_eq (op : BinaryOp) (lhs rhs : Word) :
    op.eval? lhs rhs = binary? lhs rhs op := by
  cases op with
  | arith op => exact op.eval?_eq lhs rhs
  | cmp cond => rw [eval?, cond.holds_eq, binary?, truth_eq]
  | logic op => exact op.holds_eq lhs rhs

theorem UnaryOp.eval_eq (op : UnaryOp) (value : Word) : op.eval value = Source.unary value op := by
  cases op with
  | neg => rw [eval, Source.unary, Int64.ofInt_neg, Int64.ofInt_toInt]
  | not => rw [eval, Source.unary, truth_eq, Bool.beq_eq_decide_eq]

end GotoLang
