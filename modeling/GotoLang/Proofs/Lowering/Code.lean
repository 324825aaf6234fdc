import GotoLang.Lowering
import GotoLang.Proofs.Session.Calls
import GotoLang.Proofs.Source
import GotoLang.Proofs.SymbolTable

/-!
# The code of statements

Lowering a program gives each variable a slot and each label an address. Once these are known, every
statement has its code: its expression in postfix order and then what is done with the value. The
program that lowering returns is the code of the statements, in order, with the epilogue behind it.

While the statements are visited, some transfers wait for their labels. The invariant of the visit is
therefore about any layout that agrees with what is known so far: after the waiting transfers got the
addresses of that layout, the buffer holds the code of the statements that were visited.
-/
namespace GotoLang
open Source

/-- The places of variables and labels, and the types of the variables. -/
structure Layout where
  slot : String → Slot
  scope : Scope
  addr : String → Addr

def Expr.code (layout : Layout) : Expr → List Op
  | int value _ => [.push value]
  | bool value _ => [.push value.toInt64]
  | var name _ => [.load (layout.slot name)]
  | unary op operand _ => operand.code layout ++ [.unary op]
  | binary op lhs rhs _ => lhs.code layout ++ rhs.code layout ++ [.binary op]

def Expr.size : Expr → Nat
  | int _ _ | bool _ _ | var _ _ => 1
  | unary _ operand _ => operand.size + 1
  | binary _ lhs rhs _ => lhs.size + rhs.size + 1

def Stmt.code (layout : Layout) : Stmt → List Op
  | label _ _ => []
  | declare name value _ => value.code layout ++ [.store (layout.slot name)]
  | assign name value _ => value.code layout ++ [.store (layout.slot name)]
  | print value _ => value.code layout ++ [.print ((value.ty? layout.scope).getD .int)]
  | goto name _ => [.jump (layout.addr name)]
  | ifGoto cond name _ => cond.code layout ++ [.jumpIf (layout.addr name)]
  | exit value _ => value.code layout ++ [.exit]

def Stmt.size : Stmt → Nat
  | label _ _ => 0
  | goto _ _ => 1
  | declare _ value _ | assign _ value _ | print value _ | ifGoto value _ _ | exit value _ =>
    value.size + 1

namespace Source

def code (layout : Layout) (stmts : List Stmt) : List Op :=
  stmts.flatMap (Stmt.code layout)

/-- The number of operations of some statements. -/
def size : List Stmt → Nat
  | [] => 0
  | stmt :: rest => stmt.size + size rest

end Source

theorem Expr.length_code (layout : Layout) (e : Expr) : (e.code layout).length = e.size := by
  induction e with
  | int _ _ => rfl
  | bool _ _ => rfl
  | var _ _ => rfl
  | unary _ _ _ ih => simp [code, size, ih]
  | binary _ _ _ _ ihl ihr => simp [code, size, ihl, ihr, Nat.add_assoc]

theorem Stmt.length_code (layout : Layout) (stmt : Stmt) :
    (stmt.code layout).length = stmt.size := by
  cases stmt <;> simp [code, size, Expr.length_code]

theorem Source.length_code (layout : Layout) (stmts : List Stmt) :
    (code layout stmts).length = size stmts := by
  induction stmts with
  | nil => rfl
  | cons stmt rest ih =>
      rw [code, List.flatMap_cons, List.length_append, Stmt.length_code]
      exact congrArg (stmt.size + ·) ih

theorem Source.size_append (stmts more : List Stmt) :
    size (stmts ++ more) = size stmts + size more := by
  induction stmts with
  | nil => exact (Nat.zero_add _).symm
  | cons stmt rest ih => rw [List.cons_append, size, ih, size, Nat.add_assoc]

theorem Source.code_append (layout : Layout) (stmts more : List Stmt) :
    code layout (stmts ++ more) = code layout stmts ++ code layout more :=
  List.flatMap_append

namespace Lowering

theorem emission_eq_ok {α : Type} {action : Emit α} {st st' : State} {a : α} :
    emission action st = .ok a st' ↔
      ∃ session, action st.session = .ok a session ∧ st' = ⟨session, st.symbols⟩ := by
  obtain ⟨start, symbols⟩ := st
  simp only [emission]
  cases action start with
  | ok value session =>
      constructor
      · intro h
        cases h
        exact ⟨session, rfl, rfl⟩
      · intro h
        obtain ⟨session', hs, rfl⟩ := h
        cases hs
        rfl
  | error e session => simp

theorem naming_eq_ok {α : Type} {action : EStateM TypingError SymbolTable α} {st st' : State} {a : α} :
    naming action st = .ok a st' ↔
      ∃ symbols, action st.symbols = .ok a symbols ∧ st' = ⟨st.session, symbols⟩ := by
  obtain ⟨session, start⟩ := st
  simp only [naming]
  cases action start with
  | ok value symbols =>
      constructor
      · intro h
        cases h
        exact ⟨symbols, rfl, rfl⟩
      · rintro ⟨symbols', hs, rfl⟩
        cases hs
        rfl
  | error e symbols => simp

theorem check_eq_ok {α : Type} {outcome : Except TypingError α} {st st' : State} {a : α} :
    check outcome st = .ok a st' ↔ outcome = .ok a ∧ st' = st := by
  constructor
  · intro h
    cases outcome with
    | ok value =>
        cases h
        exact ⟨rfl, rfl⟩
    | error e => cases h
  · intro h
    rw [h.1, h.2]
    rfl

/-- From one state to the other, operations were appended and nothing else was done. -/
structure Emits (st st' : State) (code : List Op) : Prop where
  ops : st'.session.buffer.ops.toList = st.session.buffer.ops.toList ++ code
  lines : st'.session.buffer.lines.size = st.session.buffer.lines.size + code.length
  labels : st'.session.labels = st.session.labels
  symbols : st'.symbols = st.symbols

theorem Emits.trans {st st' st'' : State} {code more : List Op} (h : Emits st st' code)
    (k : Emits st' st'' more) : Emits st st'' (code ++ more) := by
  constructor
  · rw [k.ops, h.ops, List.append_assoc]
  · rw [k.lines, h.lines, List.length_append, Nat.add_assoc]
  · rw [k.labels, h.labels]
  · rw [k.symbols, h.symbols]

theorem emit_spec {op : Op} {span : Span} {st st' : State} {u : Unit}
    (h : emit op span st = .ok u st') : Emits st st' [op] := by
  unfold emit at h
  obtain ⟨addr, h⟩ := discard_eq_ok.mp h
  obtain ⟨session, hs, rfl⟩ := emission_eq_ok.mp h
  obtain ⟨-, -, rfl⟩ := Session.emit_eq_ok hs
  exact ⟨Array.toList_push, Array.size_push _, rfl, rfl⟩

/-- A layout agrees with the variables and labels that are known. -/
structure Agrees (layout : Layout) (st : State) : Prop where
  vars : ∀ name symbol, st.symbols.symbols.get? name = some symbol →
    layout.slot name = symbol.slot ∧ layout.scope name = some symbol.ty
  label : ∀ name addr, st.session.labels.lookup name = some addr → layout.addr name = addr

theorem Agrees.of_emits {layout : Layout} {st st' : State} {code : List Op} (h : Agrees layout st)
    (k : Emits st st' code) : Agrees layout st' := by
  constructor
  · rw [k.symbols]
    exact h.vars
  · rw [k.labels]
    exact h.label

theorem lookup_spec {name : String} {span : Span} {st st' : State} {symbol : Symbol}
    (h : lookup name span st = .ok symbol st') :
    st' = st ∧ st.symbols.symbols.get? name = some symbol := by
  unfold lookup at h
  obtain ⟨st₁, st₂, h₁, h₂⟩ := bind_eq_ok.mp h
  cases h₁
  obtain ⟨h₂, rfl⟩ := check_eq_ok.mp h₂
  exact ⟨rfl, SymbolTable.lookup_eq_ok_iff.mp h₂⟩

theorem expect_eq_ok {context : String} {expected found : Ty} {span : Span} {u : Unit}
    (h : Ty.expect context expected found span = .ok u) : expected = found := by
  unfold Ty.expect at h
  split at h
  · assumption
  · cases h

theorem accepts_of_operandTy {op : BinaryOp} {ty : Ty}
    (h : op.operandTy? = none ∨ op.operandTy? = some ty) : accepts ty ty op = true := by
  cases op with
  | arith op => cases ty <;> simp_all [BinaryOp.operandTy?, accepts]
  | cmp cond => cases cond <;> cases ty <;> simp_all [BinaryOp.operandTy?, accepts]
  | logic op => cases ty <;> simp_all [BinaryOp.operandTy?, accepts]

theorem binaryTy_eq_ok {op : BinaryOp} {lhs rhs ty : Ty} {lhsSpan rhsSpan span : Span}
    (h : binaryTy op lhs rhs lhsSpan rhsSpan span = .ok ty) :
    accepts lhs rhs op = true ∧ ty = op.resultTy := by
  unfold binaryTy at h
  split at h
  · next operand ho =>
      cases hl : Ty.expect s!"operand of `{op.symbol}`" operand lhs lhsSpan with
      | error e =>
          rw [hl] at h
          cases h
      | ok u =>
          cases hr : Ty.expect s!"operand of `{op.symbol}`" operand rhs rhsSpan with
          | error e =>
              rw [hl, hr] at h
              cases h
          | ok v =>
              rw [hl, hr] at h
              cases h
              rw [← expect_eq_ok hl, ← expect_eq_ok hr]
              exact ⟨accepts_of_operandTy (.inr ho), rfl⟩
  · next ho =>
      split at h
      · next he =>
          cases h
          rw [he]
          exact ⟨accepts_of_operandTy (.inl ho), rfl⟩
      · cases h

theorem expr_spec {layout : Layout} {e : Expr} {st st' : State} {ty : Ty}
    (h : expr e st = .ok ty st') (hl : Agrees layout st) :
    Emits st st' (e.code layout) ∧ e.ty? layout.scope = some ty := by
  induction e generalizing st st' ty with
  | int value span =>
      obtain ⟨_, st₁, h₁, h₂⟩ := bind_eq_ok.mp h
      cases h₂
      exact ⟨emit_spec h₁, rfl⟩
  | bool value span =>
      obtain ⟨_, st₁, h₁, h₂⟩ := bind_eq_ok.mp h
      cases h₂
      exact ⟨emit_spec h₁, rfl⟩
  | var name span =>
      obtain ⟨symbol, st₁, h₁, k₁⟩ := bind_eq_ok.mp h
      obtain ⟨rfl, hf⟩ := lookup_spec h₁
      obtain ⟨_, st₂, h₂, k₂⟩ := bind_eq_ok.mp k₁
      cases k₂
      obtain ⟨hslot, hty⟩ := hl.vars name symbol hf
      rw [Expr.code, hslot, Expr.ty?, hty]
      exact ⟨emit_spec h₂, rfl⟩
  | unary op operand span ih =>
      obtain ⟨ty₁, st₁, h₁, k₁⟩ := bind_eq_ok.mp h
      obtain ⟨_, st₂, h₂, k₂⟩ := bind_eq_ok.mp k₁
      obtain ⟨hty, rfl⟩ := check_eq_ok.mp h₂
      obtain ⟨_, st₃, h₃, k₃⟩ := bind_eq_ok.mp k₂
      cases k₃
      obtain ⟨he, ht⟩ := ih h₁ hl
      rw [← expect_eq_ok hty] at ht
      refine ⟨he.trans (emit_spec h₃), ?_⟩
      rw [Expr.ty?, if_pos ht]
  | binary op lhs rhs span ihl ihr =>
      obtain ⟨ty₁, st₁, h₁, k₁⟩ := bind_eq_ok.mp h
      obtain ⟨ty₂, st₂, h₂, k₂⟩ := bind_eq_ok.mp k₁
      obtain ⟨ty₃, st₃, h₃, k₃⟩ := bind_eq_ok.mp k₂
      obtain ⟨hty, rfl⟩ := check_eq_ok.mp h₃
      obtain ⟨_, st₄, h₄, k₄⟩ := bind_eq_ok.mp k₃
      cases k₄
      obtain ⟨hel, htl⟩ := ihl h₁ hl
      obtain ⟨her, htr⟩ := ihr h₂ (hl.of_emits hel)
      obtain ⟨hop, rfl⟩ := binaryTy_eq_ok hty
      refine ⟨(hel.trans her).trans (emit_spec h₄), ?_⟩
      rw [Expr.ty?, htl, htr, Option.bind_some, Option.bind_some, if_pos hop]

end Lowering

end GotoLang
