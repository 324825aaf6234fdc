import GotoLang.Proofs.Lowering.Checking
import GotoLang.Proofs.Lowering.WellFormed
import GotoLang.Proofs.Session.Failure

/-!
# Lowering accepts the well-formed programs

The visit checks names, types, labels and both limits while it emits. For each part of it we say what it
needs in order to succeed: first for expressions, then for one statement behind others, then for all of
them. The limits are kept as sums, so that what is asked of each statement adds up to what is asked of the
program.
-/
namespace GotoLang
open Source

namespace Lowering

/-- A computation comes to this result. -/
def Returns {ε σ α : Type} (x : EStateM ε σ α) (s : σ) (a : α) : Prop :=
  ∃ s', x s = .ok a s'

theorem returns_bind_iff {ε σ α β : Type} {x : EStateM ε σ α} {f : α → EStateM ε σ β} {s : σ} {b : β} :
    Returns (x >>= f) s b ↔ ∃ a s', x s = .ok a s' ∧ Returns (f a) s' b := by
  unfold Returns
  constructor
  · intro hall
    obtain ⟨s'', hall⟩ := hall
    obtain ⟨a, s', hx, hf⟩ := bind_eq_ok.mp hall
    exact ⟨a, s', hx, s'', hf⟩
  · intro hall
    obtain ⟨a, s', hx, s'', hf⟩ := hall
    exact ⟨s'', bind_eq_ok.mpr ⟨a, s', hx, hf⟩⟩

/-- If what follows needs `R` of the result, then so does the whole. -/
theorem returns_bind {ε σ α β : Type} {x : EStateM ε σ α} {f : α → EStateM ε σ β} {s : σ} {b : β}
    (R : α → Prop) (h : ∀ a s', x s = .ok a s' → (Returns (f a) s' b ↔ R a)) :
    Returns (x >>= f) s b ↔ ∃ a, Returns x s a ∧ R a := by
  rw [returns_bind_iff]
  constructor
  · intro hall
    obtain ⟨a, s', hx, hf⟩ := hall
    exact ⟨a, ⟨s', hx⟩, (h a s' hx).mp hf⟩
  · intro hall
    obtain ⟨a, ⟨s', hx⟩, hR⟩ := hall
    exact ⟨a, s', hx, (h a s' hx).mpr hR⟩

/-- If what follows comes to some result just when `R` holds, then the whole needs `R` as well. -/
theorem exists_returns_bind {ε σ α β : Type} {x : EStateM ε σ α} {f : α → EStateM ε σ β} {s : σ}
    (R : Prop) (h : ∀ a s', x s = .ok a s' → ((∃ b, Returns (f a) s' b) ↔ R)) :
    (∃ b, Returns (x >>= f) s b) ↔ (∃ a, Returns x s a) ∧ R := by
  simp only [returns_bind_iff]
  constructor
  · intro hall
    obtain ⟨b, a, s', hx, hf⟩ := hall
    exact ⟨⟨a, s', hx⟩, (h a s' hx).mp ⟨b, hf⟩⟩
  · intro hall
    obtain ⟨⟨a, s', hx⟩, hR⟩ := hall
    obtain ⟨b, hf⟩ := (h a s' hx).mpr hR
    exact ⟨b, a, s', hx, hf⟩

theorem returns_pure {ε σ α : Type} {a b : α} {s : σ} :
    Returns (pure a : EStateM ε σ α) s b ↔ a = b := by
  constructor
  · intro h
    obtain ⟨s', h⟩ := h
    cases h
    rfl
  · intro h
    exact ⟨s, by rw [h]; rfl⟩

theorem returns_discard {ε σ α : Type} {x : EStateM ε σ α} {s : σ} {u : Unit} :
    Returns (discard x) s u ↔ ∃ a, Returns x s a := by
  simp only [Returns, discard_eq_ok]
  exact exists_comm

theorem returns_emission {α : Type} {action : Emit α} {st : State} {a : α} :
    Returns (emission action) st a ↔ Returns action st.session a := by
  simp only [Returns, emission_eq_ok]
  constructor
  · intro h
    obtain ⟨st', session, haction, -⟩ := h
    exact ⟨session, haction⟩
  · intro h
    obtain ⟨session, haction⟩ := h
    exact ⟨_, session, haction, rfl⟩

theorem returns_check {α : Type} {outcome : Except TypingError α} {st : State} {a : α} :
    Returns (check outcome) st a ↔ outcome = .ok a := by
  simp [Returns, check_eq_ok]

theorem returns_check_bind {α β : Type} {outcome : Except TypingError α} {f : α → Lower β} {st : State}
    {b : β} : Returns (check outcome >>= f) st b ↔ ∃ a, outcome = .ok a ∧ Returns (f a) st b := by
  rw [returns_bind (fun a => Returns (f a) st b)]
  · simp only [returns_check]
  · intro a st' h
    rw [(check_eq_ok.mp h).2]

/-- There is room for so many operations. -/
def Room (st : State) (n : Nat) : Prop :=
  st.session.buffer.ops.size + n ≤ st.session.buffer.limit

theorem returns_session_emit {op : Op} {line : Nat} {session : Session} :
    (∃ addr, Returns (Session.emit op line) session addr) ↔
      session.buffer.ops.size < session.buffer.limit := by
  rw [← EmissionBuffer.isFull_eq_false]
  cases hfull : session.buffer.isFull with
  | true => simp [Returns, Session.emit_of_full hfull]
  | false => simp [Returns, Session.emit_of_room hfull]

theorem returns_emit {op : Op} {span : Span} {st : State} {u : Unit} :
    Returns (emit op span) st u ↔ Room st 1 := by
  unfold emit
  simp only [returns_discard, returns_emission, returns_session_emit]
  rfl

theorem Room.mono {st : State} {n m : Nat} (h : Room st n) (hle : m ≤ n) : Room st m :=
  (Nat.add_le_add_left hle _).trans h

theorem returns_emit_pure {α : Type} {op : Op} {span : Span} {st : State} {a b : α} :
    Returns (emit op span >>= fun _ => pure a) st b ↔ Room st 1 ∧ a = b := by
  rw [returns_bind (fun _ => a = b) fun _ _ _ => returns_pure]
  simp [returns_emit]

theorem returns_lookup {name : String} {span : Span} {st : State} {symbol : Symbol} :
    Returns (lookup name span) st symbol ↔ st.symbols.symbols.get? name = some symbol := by
  constructor
  · intro h
    obtain ⟨st', h⟩ := h
    exact (lookup_spec h).2
  · intro h
    exact ⟨st, bind_eq_ok.mpr ⟨st, st, rfl, check_eq_ok.mpr ⟨SymbolTable.lookup_eq_ok_iff.mpr h, rfl⟩⟩⟩

theorem returns_lookup_bind {β : Type} {name : String} {span : Span} {f : Symbol → Lower β} {st : State}
    {b : β} : Returns (lookup name span >>= f) st b ↔
      ∃ symbol, st.symbols.symbols.get? name = some symbol ∧ Returns (f symbol) st b := by
  rw [returns_bind (fun symbol => Returns (f symbol) st b)]
  · simp only [returns_lookup]
  · intro symbol st' h
    rw [(lookup_spec h).1]

theorem returns_declare {name : String} {ty : Ty} {span : Span} {st : State} :
    (∃ symbol, Returns (declare name ty span) st symbol) ↔ st.symbols.symbols.get? name = none := by
  constructor
  · intro h
    obtain ⟨symbol, st', h⟩ := h
    exact (SymbolTable.declare_eq_ok (declare_eq_ok h).1).1
  · intro h
    exact ⟨_, _, naming_eq_ok.mpr ⟨_, SymbolTable.declare_of_new h, rfl⟩⟩

theorem returns_bindLabel {label : String} {span : Span} {session : Session} :
    (∃ addr, Returns (Session.bind label span) session addr) ↔ session.labels.lookup label = none := by
  constructor
  · intro h
    obtain ⟨addr, session', h⟩ := h
    obtain ⟨labels, hbind, -⟩ := Session.bind_eq_ok_iff.mp h
    exact LabelTable.lookup_eq_none_iff.mpr (LabelTable.bind_eq_ok_iff.mp hbind).1
  · intro h
    exact ⟨_, _, Session.bind_of_unbound (LabelTable.lookup_eq_none_iff.mp h)⟩

/-- A transfer needs room in the buffer, and if it has to wait also in the label table. -/
theorem returns_transfer {make : Addr → Op} {label : String} {span : Span} {session : Session} :
    (∃ addr, Returns (Session.emitTransfer make label span) session addr) ↔
      session.buffer.ops.size < session.buffer.limit ∧
        (session.labels.lookup label = none → session.labels.pending.size < session.labels.capacity) := by
  cases hlookup : session.labels.lookup label with
  | some target =>
      have hemit : (∃ addr, Returns (Session.emit (make target) span.line) session.counted addr) ↔ _ := returns_session_emit
      simpa [Returns, Session.emitTransfer_of_bound hlookup, Session.counted] using hemit
  | none =>
      rw [← EmissionBuffer.isFull_eq_false]
      cases hfull : session.buffer.isFull with
      | true => simp [Returns, Session.emitTransfer_of_full hlookup hfull]
      | false =>
          by_cases hroom : session.labels.pending.size < session.labels.capacity
          · simp [Returns, Session.emitTransfer_of_room hlookup hfull hroom, hroom]
          · simp [Returns, Session.emitTransfer_of_table_full hlookup hfull (Nat.le_of_not_lt hroom), hroom]

/-- Neither capacity changes. -/
def Steady {α : Type} (x : Lower α) : Prop :=
  ∀ st a st', x st = .ok a st' → st'.session.buffer.capacity = st.session.buffer.capacity ∧
    st'.session.labels.capacity = st.session.labels.capacity

theorem Steady.bind {α β : Type} {x : Lower α} {f : α → Lower β} (hx : Steady x)
    (hf : ∀ a, Steady (f a)) : Steady (x >>= f) := by
  intro st b st'' h
  obtain ⟨a, st', h₁, h₂⟩ := bind_eq_ok.mp h
  obtain ⟨hbuffer, hlabels⟩ := hx st a st' h₁
  obtain ⟨hbuffer', hlabels'⟩ := hf a st' b st'' h₂
  exact ⟨hbuffer'.trans hbuffer, hlabels'.trans hlabels⟩

theorem Steady.of_session {α : Type} {x : Lower α}
    (h : ∀ st a st', x st = .ok a st' → st'.session = st.session) : Steady x := by
  intro st a st' hx
  rw [h st a st' hx]
  exact ⟨rfl, rfl⟩

theorem steady_check {α : Type} (outcome : Except TypingError α) : Steady (check outcome) := by
  apply Steady.of_session
  intro st a st' h
  rw [(check_eq_ok.mp h).2]

theorem steady_pure {α : Type} (a : α) : Steady (pure a : Lower α) := by
  intro st b st' h
  cases h
  exact ⟨rfl, rfl⟩

theorem steady_lookup (name : String) (span : Span) : Steady (lookup name span) := by
  apply Steady.of_session
  intro st a st' h
  rw [(lookup_spec h).1]

theorem steady_declare (name : String) (ty : Ty) (span : Span) : Steady (declare name ty span) :=
  Steady.of_session fun _ _ _ h => (declare_eq_ok h).2

theorem steady_discard {α : Type} {action : Emit α}
    (h : ∀ session a session', action session = .ok a session' →
      session'.buffer.capacity = session.buffer.capacity ∧
        session'.labels.capacity = session.labels.capacity) : Steady (discard (emission action)) := by
  intro st u st' hx
  obtain ⟨a, hx⟩ := discard_eq_ok.mp hx
  obtain ⟨session, hsession, rfl⟩ := emission_eq_ok.mp hx
  exact h _ _ _ hsession

theorem capacity_emit {op : Op} {line : Nat} {session session' : Session} {addr : Addr}
    (h : Session.emit op line session = .ok addr session') :
    session'.buffer.capacity = session.buffer.capacity ∧
      session'.labels.capacity = session.labels.capacity := by
  obtain ⟨-, -, rfl⟩ := Session.emit_eq_ok h
  exact ⟨rfl, rfl⟩

theorem capacity_transfer {make : Addr → Op} {label : String} {span : Span} {session session' : Session}
    {addr : Addr} (h : Session.emitTransfer make label span session = .ok addr session') :
    session'.buffer.capacity = session.buffer.capacity ∧
      session'.labels.capacity = session.labels.capacity := by
  obtain ⟨-, -, ⟨target, -, rfl⟩ | ⟨-, -, rfl⟩⟩ := Session.emitTransfer_eq_ok h
  · exact ⟨rfl, rfl⟩
  · exact ⟨rfl, rfl⟩

theorem capacity_bind {label : String} {span : Span} {session session' : Session} {addr : Addr}
    (h : Session.bind label span session = .ok addr session') :
    session'.buffer.capacity = session.buffer.capacity ∧
      session'.labels.capacity = session.labels.capacity := by
  obtain ⟨labels, hbind, -, rfl⟩ := Session.bind_eq_ok_iff.mp h
  obtain ⟨-, rfl⟩ := LabelTable.bind_eq_ok_iff.mp hbind
  exact ⟨rfl, rfl⟩

theorem steady_emit (op : Op) (span : Span) : Steady (emit op span) :=
  steady_discard fun _ _ _ h => capacity_emit h

theorem steady_expr (e : Expr) : Steady (expr e) := by
  induction e with
  | int value span => exact (steady_emit _ span).bind fun _ => steady_pure _
  | bool value span => exact (steady_emit _ span).bind fun _ => steady_pure _
  | var name span =>
      exact (steady_lookup name span).bind fun _ => (steady_emit _ span).bind fun _ => steady_pure _
  | unary op operand span ih =>
      exact ih.bind fun _ => (steady_check _).bind fun _ => (steady_emit _ span).bind fun _ => steady_pure _
  | binary op lhs rhs span ihl ihr =>
      exact ihl.bind fun _ => ihr.bind fun _ => (steady_check _).bind fun _ =>
        (steady_emit _ span).bind fun _ => steady_pure _

theorem steady_stmt (s : Stmt) : Steady (stmt s) := by
  cases s with
  | label name span => exact steady_discard fun _ _ _ h => capacity_bind h
  | declare name value span =>
      exact (steady_expr value).bind fun _ => (steady_declare name _ span).bind fun _ => steady_emit _ span
  | assign name value span =>
      exact (steady_lookup name span).bind fun _ => (steady_expr value).bind fun _ =>
        (steady_check _).bind fun _ => steady_emit _ span
  | print value span => exact (steady_expr value).bind fun _ => steady_emit _ span
  | goto label span => exact steady_discard fun _ _ _ h => capacity_transfer h
  | ifGoto cond label span =>
      exact (steady_expr cond).bind fun _ => (steady_check _).bind fun _ =>
        steady_discard fun _ _ _ h => capacity_transfer h
  | exit value span =>
      exact (steady_expr value).bind fun _ => (steady_check _).bind fun _ => steady_emit _ span

/-- What an expression leaves as it was. -/
structure Extends (st st' : State) (n : Nat) : Prop where
  symbols : st'.symbols = st.symbols
  labels : st'.session.labels = st.session.labels
  room : ∀ m, Room st' m ↔ Room st (n + m)

theorem Emits.extends {st st' : State} {code : List Op} {n : Nat} (h : Emits st st' code)
    (hsize : st'.session.buffer.ops.size = st.session.buffer.ops.size + n)
    (hcapacity : st'.session.buffer.capacity = st.session.buffer.capacity) : Extends st st' n := by
  refine ⟨h.symbols, h.labels, ?_⟩
  intro m
  rw [Room, Room, EmissionBuffer.limit, EmissionBuffer.limit, hsize, hcapacity, Nat.add_assoc]

theorem extends_expr {e : Expr} {st st' : State} {ty : Ty} (h : expr e st = .ok ty st') :
    Extends st st' e.size := by
  obtain ⟨code, -, hemits, -⟩ := expr_emits h
  exact hemits.extends (grows_expr e st ty st' h).1 (steady_expr e st ty st' h).1

theorem extends_emit {op : Op} {span : Span} {st st' : State} {u : Unit} (h : emit op span st = .ok u st') :
    Extends st st' 1 :=
  (emit_spec h).extends (grows_emit op span st u st' h).1 (steady_emit op span st u st' h).1

theorem Extends.scope {st st' : State} {n : Nat} (h : Extends st st' n) : (known st').scope = (known st).scope := by
  unfold known
  rw [h.symbols]

theorem expect_iff {context : String} {expected found : Ty} {span : Span} {u : Unit} :
    Ty.expect context expected found span = .ok u ↔ expected = found := by
  unfold Ty.expect
  split <;> simp_all

theorem operandTy_of_accepts {op : BinaryOp} {lhs rhs : Ty} (h : accepts lhs rhs op) :
    lhs = rhs ∧ (op.operandTy? = none ∨ op.operandTy? = some lhs) := by
  cases op with
  | arith op => simp_all [accepts, BinaryOp.operandTy?]
  | cmp cond => cases cond <;> simp_all [accepts, BinaryOp.operandTy?]
  | logic op => simp_all [accepts, BinaryOp.operandTy?]

theorem binaryTy_iff {op : BinaryOp} {lhs rhs ty : Ty} {lhsSpan rhsSpan span : Span} :
    binaryTy op lhs rhs lhsSpan rhsSpan span = .ok ty ↔ accepts lhs rhs op ∧ op.resultTy = ty := by
  constructor
  · intro h
    obtain ⟨haccepts, rfl⟩ := binaryTy_eq_ok h
    exact ⟨haccepts, rfl⟩
  · intro h
    obtain ⟨haccepts, rfl⟩ := h
    obtain ⟨rfl, hop | hop⟩ := operandTy_of_accepts haccepts
    · simp [binaryTy, hop]
    · simp only [binaryTy, hop, Ty.expect, if_true]
      rfl

/-- What needs so many operations behind an expression needs them together with those of the expression. -/
theorem returns_expr_bind {β : Type} {e : Expr} {f : Ty → Lower β} {st : State} {b : β}
    (n : Nat) (P : Ty → Prop)
    (he : ∀ ty, Returns (expr e) st ty ↔ e.ty? (known st).scope = some ty ∧ Room st e.size)
    (h : ∀ ty st', Extends st st' e.size → (Returns (f ty) st' b ↔ P ty ∧ Room st' n)) :
    Returns (expr e >>= f) st b ↔
      (∃ ty, e.ty? (known st).scope = some ty ∧ P ty) ∧ Room st (e.size + n) := by
  rw [returns_bind (fun ty => P ty ∧ Room st (e.size + n))]
  · simp only [he]
    constructor
    · rintro ⟨ty, ⟨hty, -⟩, hP, hroom⟩
      exact ⟨⟨ty, hty, hP⟩, hroom⟩
    · rintro ⟨⟨ty, hty, hP⟩, hroom⟩
      exact ⟨ty, ⟨hty, hroom.mono (Nat.le_add_right _ _)⟩, hP, hroom⟩
  · intro ty st' hexpr
    have hafter := extends_expr hexpr
    rw [h ty st' hafter, hafter.room]

/-- An expression needs a type and room for its operations. -/
theorem returns_expr {e : Expr} {st : State} {ty : Ty} :
    Returns (expr e) st ty ↔ e.ty? (known st).scope = some ty ∧ Room st e.size := by
  induction e generalizing st ty with
  | int value span =>
      rw [expr, returns_emit_pure]
      simp [Expr.ty?, Expr.size, and_comm]
  | bool value span =>
      rw [expr, returns_emit_pure]
      simp [Expr.ty?, Expr.size, and_comm]
  | var name span =>
      simp only [expr, returns_lookup_bind, returns_emit_pure, Expr.ty?, known, Option.map_eq_some_iff,
        Expr.size]
      constructor
      · rintro ⟨symbol, hfind, hroom, hty⟩
        exact ⟨⟨symbol, hfind, hty⟩, hroom⟩
      · rintro ⟨⟨symbol, hfind, hty⟩, hroom⟩
        exact ⟨symbol, hfind, hroom, hty⟩
  | unary op operand span ih =>
      rw [expr, returns_expr_bind 1 (fun found => op.ty = found ∧ op.ty = ty) fun _ => ih]
      · rw [Expr.ty?, Option.ite_none_right_eq_some, Expr.size, Option.some.injEq]
        simp
      · intro found st' hafter
        simp only [returns_check_bind, returns_emit_pure, expect_iff, exists_const]
        exact and_left_comm.trans and_comm
  | binary op lhs rhs span ihl ihr =>
      rw [expr, returns_expr_bind (rhs.size + 1) (fun a => ∃ b, rhs.ty? (known st).scope = some b ∧
        accepts a b op ∧ op.resultTy = ty) fun _ => ihl]
      · simp [Expr.ty?, Expr.size, Option.bind_eq_some_iff, Nat.add_assoc]
      · intro a st' hafter
        rw [returns_expr_bind 1 (fun b => accepts a b op ∧ op.resultTy = ty) fun _ => ihr, hafter.scope]
        intro b st'' _
        simp only [returns_check_bind, returns_emit_pure, binaryTy_iff]
        constructor
        · rintro ⟨result, ⟨haccepts, rfl⟩, hroom, hty⟩
          exact ⟨⟨haccepts, hty⟩, hroom⟩
        · rintro ⟨⟨haccepts, hty⟩, hroom⟩
          exact ⟨op.resultTy, ⟨haccepts, rfl⟩, hroom, hty⟩

theorem lookup_eq_none {table : LabelTable} {done : List Stmt} (h : Bound table done) (name : String) :
    table.lookup name = none ↔ name ∉ Source.labels done := by
  have hnames : Source.labels done = table.order.toList := by
    rw [Source.labels, ← map_name_marks 0, ← h.marks, h.coherent.names_marks]
  rw [hnames, Array.mem_toList_iff, h.coherent name, not_not]

/-- The label table can take the transfer to a label, if there is one. -/
def Awaits (st : State) (dest : Option String) : Prop :=
  ∀ label ∈ dest, st.session.labels.lookup label = none →
    st.session.labels.pending.size < st.session.labels.capacity

theorem returns_emitTransfer {make : Addr → Op} {label : String} {span : Span} {st : State} {u : Unit} :
    Returns (discard (emission (Session.emitTransfer make label span))) st u ↔
      Awaits st (some label) ∧ Room st 1 := by
  simp only [returns_discard, returns_emission, returns_transfer, Awaits, Option.mem_some_iff, forall_eq']
  exact and_comm

theorem returns_declare_emit {name : String} {ty : Ty} {span : Span} {st : State} {u : Unit} :
    Returns (declare name ty span >>= fun symbol => emit (.store symbol.slot) span) st u ↔
      st.symbols.symbols.get? name = none ∧ Room st 1 := by
  rw [returns_bind (fun _ => Room st 1)]
  · rw [exists_and_right, returns_declare]
  · intro symbol st' h
    rw [returns_emit, Room, (declare_eq_ok h).2]
    rfl

/-- A statement behind others needs to be admitted, and room in the buffer and in the label table. -/
theorem returns_stmt {done : List Stmt} {s : Stmt} {st : State} {u : Unit} (h : Visited st done)
    (hroom : Room st 0) :
    Returns (stmt s) st u ↔ Admits done s ∧ Room st s.size ∧ Awaits st (destination? s) := by
  have hscope := h.scope_known
  have hnone : Awaits st none := fun label hlabel => by cases hlabel
  cases s with
  | label name span =>
      simp only [stmt, returns_discard, returns_emission, returns_bindLabel, lookup_eq_none h.labels,
        Admits, Stmt.size, destination?, hroom, hnone, and_true]
  | declare name value span =>
      rw [stmt, returns_expr_bind 1 (fun _ => st.symbols.symbols.get? name = none) fun _ => returns_expr]
      · have hfresh : scope done name = none ↔ st.symbols.symbols.get? name = none := by
          simp [← hscope, known]
        simp [Admits, Stmt.size, destination?, hscope, hnone, hfresh, and_comm]
      · intro ty st' hafter
        rw [returns_declare_emit, hafter.symbols]
  | assign name value span =>
      have htarget : ∀ ty, scope done name = some ty ↔
          ∃ symbol, st.symbols.symbols.get? name = some symbol ∧ symbol.ty = ty := by
        intro ty
        rw [← hscope, known, Option.map_eq_some_iff]
      rw [stmt, returns_lookup_bind]
      refine (exists_congr fun symbol => and_congr_right fun _ =>
        returns_expr_bind 1 (fun ty => symbol.ty = ty) (fun _ => returns_expr) ?_).trans ?_
      · intro ty st' hafter
        simp only [returns_check_bind, returns_emit, expect_iff, exists_const]
      · simp only [Admits, htarget, Stmt.size, destination?, hnone, and_true, hscope]
        constructor
        · rintro ⟨symbol, hfind, ⟨ty, hvalue, hty⟩, hroom⟩
          exact ⟨⟨ty, ⟨symbol, hfind, hty⟩, hvalue⟩, hroom⟩
        · rintro ⟨⟨ty, ⟨symbol, hfind, hty⟩, hvalue⟩, hroom⟩
          exact ⟨symbol, hfind, ⟨ty, hvalue, hty⟩, hroom⟩
  | print value span =>
      rw [stmt, returns_expr_bind 1 (fun _ => True) fun _ => returns_expr]
      · simp [Admits, Stmt.size, destination?, hscope, hnone]
      · intro ty st' hafter
        simp [returns_emit]
  | goto label span =>
      rw [stmt, returns_emitTransfer]
      simp [Admits, Stmt.size, destination?, and_comm]
  | ifGoto cond label span =>
      rw [stmt, returns_expr_bind 1 (fun ty => Ty.bool = ty ∧ Awaits st (some label)) fun _ => returns_expr]
      · simp [Admits, Stmt.size, destination?, hscope, and_assoc, and_comm, and_left_comm]
      · intro ty st' hafter
        simp only [returns_check_bind, returns_emitTransfer, expect_iff, exists_const, Awaits, hafter.labels,
          and_assoc]
  | exit value span =>
      rw [stmt, returns_expr_bind 1 (fun ty => Ty.int = ty) fun _ => returns_expr]
      · simp [Admits, Stmt.size, destination?, hscope, hnone]
      · intro ty st' hafter
        simp only [returns_check_bind, returns_emit, expect_iff, exists_const]

/-- Operations are appended, and at most the transfer to the given label is added to those that wait. -/
structure Leaves (st st' : State) (dest : Option String) : Prop where
  ops : st.session.buffer.ops.toList <+: st'.session.buffer.ops.toList
  count : st'.session.labels.pending.size = st.session.labels.pending.size +
    (dest.any fun label => st.session.labels.lookup label = none).toNat
  pending : ∀ r ∈ st'.session.labels.pending, r ∈ st.session.labels.pending ∨
    dest = some r.label ∧ ∃ conditional, LabelTable.Transfers st'.session.buffer r.slot conditional

theorem Leaves.of_pending {st st' : State} (hops : st.session.buffer.ops.toList <+: st'.session.buffer.ops.toList)
    (hpending : st'.session.labels.pending = st.session.labels.pending) : Leaves st st' none := by
  refine ⟨hops, ?_, ?_⟩
  · simp [hpending]
  · intro r hr
    rw [hpending] at hr
    exact .inl hr

theorem Leaves.of_emits {st st' : State} {code : List Op} (h : Emits st st' code) : Leaves st st' none := by
  apply Leaves.of_pending
  · rw [h.ops]
    exact List.prefix_append _ _
  · rw [h.labels]

/-- A transfer is the last operation, and waits if its label is not bound. -/
theorem leaves_transfer {st st' : State} {make : Addr → Op} {label : String} {span : Span} {u : Unit}
    (hmake : ∃ conditional, make placeholder = .transfer conditional placeholder)
    (h : discard (emission (Session.emitTransfer make label span)) st = .ok u st')
    (hsize : st'.session.buffer.ops.size < 4294967296) : Leaves st st' (some label) := by
  obtain ⟨addr, hemission⟩ := discard_eq_ok.mp h
  obtain ⟨session, htransfer, rfl⟩ := emission_eq_ok.mp hemission
  obtain ⟨-, -, ⟨target, hbound, rfl⟩ | ⟨hunbound, -, rfl⟩⟩ := Session.emitTransfer_eq_ok htransfer
  · refine ⟨?_, ?_, fun r hr => .inl hr⟩
    · simp [Session.emitted, Session.counted, EmissionBuffer.push]
    · simp [Session.emitted, Session.counted, hbound]
  · have hgrow : (st.session.awaiting make label span).buffer.ops.size = st.session.buffer.ops.size + 1 :=
      Array.size_push _
    have hlt : (st.session.awaiting make label span).buffer.ops.size < 4294967296 := hsize
    have hnext : st.session.buffer.next.toNat = st.session.buffer.ops.size :=
      UInt32.toNat_ofNat_of_lt' (by rw [UInt32.size]; omega)
    refine ⟨?_, ?_, ?_⟩
    · simp [Session.awaiting, Session.emitted, EmissionBuffer.push]
    · simp [Session.awaiting, hunbound]
    intro r hr
    rcases Array.mem_push.mp hr with hr | rfl
    · exact .inl hr
    · obtain ⟨conditional, hmake⟩ := hmake
      refine .inr ⟨rfl, conditional, placeholder, ?_⟩
      rw [← hmake, EmissionBuffer.get?, hnext]
      exact Array.getElem?_push_size

/-- What stands before a transfer changes neither labels nor waiting transfers. -/
theorem Leaves.after {st st₁ st' : State} {code : List Op} {dest : Option String} (h : Emits st st₁ code)
    (k : Leaves st₁ st' dest) : Leaves st st' dest := by
  refine ⟨(Leaves.of_emits h).ops.trans k.ops, ?_, ?_⟩
  · rw [k.count, h.labels]
  · intro r hr
    rw [← h.labels]
    exact k.pending r hr

theorem leaves_stmt {s : Stmt} {st st' : State} {u : Unit} (h : stmt s st = .ok u st')
    (hsize : st'.session.buffer.ops.size < 4294967296) : Leaves st st' (destination? s) := by
  cases s with
  | label name span =>
      obtain ⟨addr, hemission⟩ := discard_eq_ok.mp h
      obtain ⟨session, hsession, rfl⟩ := emission_eq_ok.mp hemission
      obtain ⟨labels, hbind, -, rfl⟩ := Session.bind_eq_ok_iff.mp hsession
      obtain ⟨-, rfl⟩ := LabelTable.bind_eq_ok_iff.mp hbind
      exact Leaves.of_pending List.prefix_rfl rfl
  | declare name value span =>
      obtain ⟨ty, st₁, h₁, k₁⟩ := bind_eq_ok.mp h
      obtain ⟨symbol, st₂, h₂, k₂⟩ := bind_eq_ok.mp k₁
      obtain ⟨code, -, hvalue, -⟩ := expr_emits h₁
      have hsession := (declare_eq_ok h₂).2
      have hstore := emit_spec k₂
      apply Leaves.of_pending
      · rw [hstore.ops, hsession, hvalue.ops, List.append_assoc]
        exact List.prefix_append _ _
      · rw [hstore.labels, hsession, hvalue.labels]
  | assign name value span =>
      obtain ⟨symbol, st₁, h₁, k₁⟩ := bind_eq_ok.mp h
      obtain ⟨rfl, -⟩ := lookup_spec h₁
      obtain ⟨ty, st₂, h₂, k₂⟩ := bind_eq_ok.mp k₁
      obtain ⟨_, st₃, h₃, k₃⟩ := bind_eq_ok.mp k₂
      obtain ⟨-, rfl⟩ := check_eq_ok.mp h₃
      obtain ⟨code, -, hvalue, -⟩ := expr_emits h₂
      exact .of_emits (hvalue.trans (emit_spec k₃))
  | print value span =>
      obtain ⟨ty, st₁, h₁, k₁⟩ := bind_eq_ok.mp h
      obtain ⟨code, -, hvalue, -⟩ := expr_emits h₁
      exact .of_emits (hvalue.trans (emit_spec k₁))
  | goto label span => exact leaves_transfer ⟨false, rfl⟩ h hsize
  | ifGoto cond label span =>
      obtain ⟨ty, st₁, h₁, k₁⟩ := bind_eq_ok.mp h
      obtain ⟨_, st₂, h₂, k₂⟩ := bind_eq_ok.mp k₁
      obtain ⟨-, rfl⟩ := check_eq_ok.mp h₂
      obtain ⟨code, -, hvalue, -⟩ := expr_emits h₁
      exact (leaves_transfer ⟨true, rfl⟩ k₂ hsize).after hvalue
  | exit value span =>
      obtain ⟨ty, st₁, h₁, k₁⟩ := bind_eq_ok.mp h
      obtain ⟨_, st₂, h₂, k₂⟩ := bind_eq_ok.mp k₁
      obtain ⟨-, rfl⟩ := check_eq_ok.mp h₂
      obtain ⟨code, -, hvalue, -⟩ := expr_emits h₁
      exact .of_emits (hvalue.trans (emit_spec k₂))

/-- How a state stands with respect to its limits after some statements. -/
structure Tally (limit capacity : Nat) (st : State) (done : List Stmt) : Prop where
  visited : Visited st done
  buffer : st.session.buffer.limit = limit
  table : st.session.labels.capacity = capacity
  room : size done ≤ limit
  few : awaiting [] done ≤ capacity
  count : st.session.labels.pending.size = awaiting [] done
  /-- What waits is a transfer of one of the statements. -/
  pending : ∀ r ∈ st.session.labels.pending,
    (∃ stmt ∈ done, destination? stmt = some r.label) ∧
      ∃ conditional, LabelTable.Transfers st.session.buffer r.slot conditional

section Visit

variable {limit capacity : Nat} {st st' : State} {done rest : List Stmt} {s : Stmt} {u : Unit}

theorem waits_eq (h : Visited st done) :
    waits done s = ((destination? s).any fun label => st.session.labels.lookup label = none).toNat := by
  rw [waits]
  cases destination? s with
  | none => rfl
  | some label => simp [lookup_eq_none h.labels label]

theorem Tally.room_iff (h : Tally limit capacity st done) (n : Nat) : Room st n ↔ size done + n ≤ limit := by
  rw [Room, h.visited.size, h.buffer]

theorem Tally.awaits_iff (h : Tally limit capacity st done) :
    Awaits st (destination? s) ↔ awaiting [] done + waits done s ≤ capacity := by
  have hfew := h.few
  rw [waits, Awaits, h.count, h.table]
  cases destination? s with
  | none => simpa using hfew
  | some label =>
      simp only [Option.mem_some_iff, forall_eq', lookup_eq_none h.visited.labels, Option.any_some]
      by_cases hbound : label ∈ labels done
      · simpa [hbound] using hfew
      · rw [decide_eq_true hbound, forall_prop_of_true hbound]
        exact Iff.rfl

theorem Tally.returns (h : Tally limit capacity st done) :
    Returns (stmt s) st u ↔ Admits done s ∧ size done + s.size ≤ limit ∧
      awaiting [] done + waits done s ≤ capacity := by
  rw [returns_stmt h.visited ((h.room_iff 0).mpr h.room), h.room_iff, h.awaits_iff]

theorem transfers_of_append {buffer buffer' : EmissionBuffer} {slot : Addr} {conditional : Bool}
    (hops : buffer.ops.toList <+: buffer'.ops.toList) (h : LabelTable.Transfers buffer slot conditional) :
    LabelTable.Transfers buffer' slot conditional := by
  obtain ⟨target, hget⟩ := h
  refine ⟨target, ?_⟩
  unfold EmissionBuffer.get? at hget ⊢
  rw [← Array.getElem?_toList] at hget ⊢
  obtain ⟨more, hmore⟩ := hops
  rw [← hmore, List.getElem?_append_left (List.getElem?_eq_some_iff.mp hget).1]
  exact hget

theorem Tally.stmt (h : Tally limit capacity st done) (hs : stmt s st = .ok u st')
    (hsize : st'.session.buffer.ops.size < 4294967296) : Tally limit capacity st' (done ++ [s]) := by
  obtain ⟨-, hroom, hfew⟩ := h.returns.mp ⟨st', hs⟩
  obtain ⟨hlimit, hcapacity⟩ := steady_stmt s st u st' hs
  have hleaves := leaves_stmt hs hsize
  have hawaiting : awaiting [] (done ++ [s]) = awaiting [] done + waits done s := by
    simp [awaiting_append, awaiting]
  refine ⟨h.visited.stmt hs hsize, ?_, hcapacity.trans h.table, ?_, ?_, ?_, ?_⟩
  · rw [EmissionBuffer.limit, hlimit]
    exact h.buffer
  · rw [size_append]
    exact hroom
  · rw [hawaiting]
    exact hfew
  · rw [hleaves.count, h.count, ← waits_eq h.visited, hawaiting]
  · intro r hr
    rcases hleaves.pending r hr with hold | ⟨hdest, htransfers⟩
    · obtain ⟨⟨stmt, hstmt, hdest⟩, conditional, htransfers⟩ := h.pending r hold
      exact ⟨⟨stmt, List.mem_append_left _ hstmt, hdest⟩, conditional,
        transfers_of_append hleaves.ops htransfers⟩
    · exact ⟨⟨s, List.mem_append_right _ List.mem_cons_self, hdest⟩, htransfers⟩

/-- All statements can be visited just when they are admitted one behind the other and both limits are
kept in the end. -/
theorem returns_stmts (h : Tally limit capacity st done) (hsize : size (done ++ rest) < 4294967296) :
    Returns (stmts rest) st u ↔ Each Admits done rest ∧ size (done ++ rest) ≤ limit ∧
      awaiting [] (done ++ rest) ≤ capacity := by
  induction rest generalizing st done with
  | nil =>
      simp [stmts, returns_pure, Each, h.room, h.few]
  | cons s rest ih =>
      rw [List.append_cons] at hsize ⊢
      have hone : size (done ++ [s] ++ rest) = size done + s.size + size rest := by
        simp [size_append, size, Nat.add_assoc]
      have hwaits : awaiting [] (done ++ [s] ++ rest) =
          awaiting [] done + waits done s + awaiting (done ++ [s]) rest := by
        simp [awaiting_append, awaiting, Nat.add_assoc]
      rw [stmts, returns_bind (fun _ => Each Admits (done ++ [s]) rest ∧
        size (done ++ [s] ++ rest) ≤ limit ∧ awaiting [] (done ++ [s] ++ rest) ≤ capacity)]
      · simp only [h.returns, Each, exists_const]
        constructor
        · rintro ⟨⟨hs, -⟩, hrest, hlimits⟩
          exact ⟨⟨hs, hrest⟩, hlimits⟩
        · rintro ⟨⟨hs, hrest⟩, hlimit, hcapacity⟩
          exact ⟨⟨hs, by omega, by omega⟩, hrest, hlimit, hcapacity⟩
      · intro _ st' hs
        have hgrows := (grows_stmt s st _ st' hs).1
        have hdone := h.visited.size
        exact ih (h.stmt hs (by omega)) hsize

theorem Fresh.tally {session : Session} (h : Fresh session) :
    Tally session.buffer.limit session.labels.capacity { session } [] where
  visited := h.visited
  buffer := rfl
  table := rfl
  room := Nat.zero_le _
  few := Nat.zero_le _
  count := by simp [h.pending, awaiting]
  pending := by simp [h.pending]

theorem Tally.stmts (h : Tally limit capacity st done) (hs : stmts rest st = .ok u st')
    (hsize : size (done ++ rest) < 4294967296) : Tally limit capacity st' (done ++ rest) := by
  induction rest generalizing st done with
  | nil =>
      cases hs
      rwa [List.append_nil]
  | cons s rest ih =>
      rw [List.append_cons] at hsize ⊢
      obtain ⟨_, st₁, h₁, h₂⟩ := bind_eq_ok.mp hs
      have hgrows := (grows_stmt s st _ st₁ h₁).1
      have hdone := h.visited.size
      have hone : size (done ++ [s] ++ rest) = size done + s.size + size rest := by
        simp [size_append, size, Nat.add_assoc]
      exact ih (h.stmt h₁ (by omega)) h₂ hsize

theorem returns_finish {slots : Array Variable} {session : Session} :
    (∃ program, Returns (Session.finish slots) session program) ↔
      ∀ r ∈ session.labels.pending, ∀ e, ¬ LabelTable.Unresolvable session.labels session.buffer r e := by
  have hfails := not_congr (LabelTable.resolve_fails_iff session.labels session.buffer)
  simp only [not_exists, not_and] at hfails
  rw [← hfails]
  unfold Returns Session.finish
  cases session.labels.resolve session.buffer with
  | error e => simp
  | ok result => simp

/-- Behind the statements the session can be finished just when every label that is gone to is defined. -/
theorem Tally.returns_finish (h : Tally limit capacity st done) {session : Session} {slots : Array Variable}
    (hlabels : session.labels = st.session.labels)
    (hops : st.session.buffer.ops.toList <+: session.buffer.ops.toList) :
    (∃ program, Returns (Session.finish slots) session program) ↔
      ∀ stmt ∈ done, ∀ label ∈ destination? stmt, label ∈ labels done := by
  rw [Lowering.returns_finish, hlabels]
  constructor
  · intro hall stmt hstmt label hlabel
    by_contra hundefined
    have hnone := (lookup_eq_none h.visited.labels label).mpr hundefined
    rcases h.visited.destinations stmt hstmt label hlabel with hbound | ⟨r, hr, rfl⟩
    · rw [hnone] at hbound
      cases hbound
    · exact hall r (Array.mem_toList_iff.mp hr) _
        (.unbound ((LabelTable.lookup_eq_none _ _).mp hnone))
  · intro hdefined r hr e hfault
    obtain ⟨⟨stmt, hstmt, hdest⟩, conditional, htransfers⟩ := h.pending r hr
    cases hfault with
    | unbound hunbound =>
        have hnone := (LabelTable.lookup_eq_none _ _).mpr hunbound
        exact (lookup_eq_none h.visited.labels _).mp hnone (hdefined stmt hstmt _ hdest)
    | misplaced _ hmisplaced => exact hmisplaced conditional (transfers_of_append hops htransfers)

/-- The epilogue needs room for two operations. -/
theorem Tally.returns_epilogue (h : Tally limit capacity st done) {stop : Span} :
    (∃ result, Returns (do
      emit (.push 0) stop
      emit .exit stop
      emission (Session.finish (← get).symbols.slots)) st result) ↔
      size done + 2 ≤ limit ∧ ∀ stmt ∈ done, ∀ label ∈ destination? stmt, label ∈ labels done := by
  rw [← h.room_iff 2]
  rw [exists_returns_bind (Room st 2 ∧ ∀ stmt ∈ done, ∀ label ∈ destination? stmt, label ∈ labels done)]
  · simp only [returns_emit, exists_const]
    exact ⟨And.right, fun hboth => ⟨hboth.1.mono (Nat.le_succ 1), hboth⟩⟩
  · intro _ st₁ hpush
    rw [exists_returns_bind (∀ stmt ∈ done, ∀ label ∈ destination? stmt, label ∈ labels done)]
    · simp only [returns_emit, exists_const, (extends_emit hpush).room]
    · intro _ st₂ hexit
      have hemits := (emit_spec hpush).trans (emit_spec hexit)
      rw [← h.returns_finish hemits.labels (Leaves.of_emits hemits).ops]
      exact exists_congr fun _ => returns_emission

end Visit

/-- A program is lowered just when its statements are admitted one behind the other, both limits are kept
and every label that is gone to is defined. -/
theorem returns_program {ast : Ast} {session : Session} (hfresh : Fresh session)
    (hsize : size ast.stmts < 4294967296) :
    (∃ result, Returns (program ast) { session } result) ↔
      (Each Admits [] ast.stmts ∧ awaiting [] ast.stmts ≤ session.labels.capacity) ∧
        size ast.stmts + 2 ≤ session.buffer.limit ∧
        ∀ stmt ∈ ast.stmts, ∀ label ∈ destination? stmt, label ∈ labels ast.stmts := by
  have htally := hfresh.tally
  unfold program
  rw [exists_returns_bind (size ast.stmts + 2 ≤ session.buffer.limit ∧
    ∀ stmt ∈ ast.stmts, ∀ label ∈ destination? stmt, label ∈ labels ast.stmts)]
  · simp only [returns_stmts htally hsize, List.nil_append, exists_const]
    constructor
    · rintro ⟨⟨hadmits, -, hfew⟩, hrest⟩
      exact ⟨⟨hadmits, hfew⟩, hrest⟩
    · rintro ⟨⟨hadmits, hfew⟩, hroom, hdefined⟩
      exact ⟨⟨hadmits, (Nat.le_add_right _ 2).trans hroom, hfew⟩, hroom, hdefined⟩
  · intro _ st hstmts
    exact (htally.stmts hstmts hsize).returns_epilogue

/-- The statements obey the rules on their own just when the visit admits them one by one. -/
theorem wellFormed_iff {limit capacity : Nat} {stmts : List Stmt} :
    WellFormed limit capacity stmts ↔
      (Each Admits [] stmts ∧ awaiting [] stmts ≤ capacity) ∧ size stmts + 2 ≤ limit ∧
        ∀ stmt ∈ stmts, ∀ label ∈ destination? stmt, label ∈ labels stmts := by
  rw [each_admits_nil]
  constructor
  · intro h
    have hforward : awaiting [] stmts = forward stmts := awaiting_eq_forward h.labelled h.defined
    exact ⟨⟨⟨h.visible, h.declared, h.typed, h.labelled⟩, hforward ▸ h.forward⟩, h.size, h.defined⟩
  · rintro ⟨⟨⟨hvisible, hdeclared, htyped, hlabelled⟩, hfew⟩, hsize, hdefined⟩
    have hforward : awaiting [] stmts = forward stmts := awaiting_eq_forward hlabelled hdefined
    exact ⟨hvisible, hdeclared, htyped, hlabelled, hdefined, hforward ▸ hfew, hsize⟩

end Lowering

theorem Ast.exists_lower_iff {ast : Ast} {session : Session} :
    (∃ program session', ast.lower session = (.ok program, session')) ↔
      ∃ program, Lowering.Returns (Lowering.program ast) { session } program := by
  apply exists_congr
  intro program
  constructor
  · intro h
    obtain ⟨session', h⟩ := h
    exact lower_eq_ok h
  · intro h
    obtain ⟨st, h⟩ := h
    exact ⟨st.session, by rw [lower, h]⟩

/-- Lowering succeeds for the well-formed programs and for no others. -/
theorem Ast.lower_ok_iff_wellFormed {config : Config} {host : Host} {c : Compilation}
    (hstart : Compilation.start config host = .ok c) (ast : Ast) (hsize : size ast.stmts < 4294967296) :
    (∃ program session, ast.lower c.session = (.ok program, session)) ↔
      WellFormed (config.maxOps.getD 4294967295) config.maxForwardRefs ast.stmts := by
  rw [exists_lower_iff, Compilation.session_of_start hstart,
    Lowering.returns_program (Lowering.fresh_start _ _) hsize, Lowering.wellFormed_iff]
  rfl

/-- A countdown jumps ahead once and has fifteen operations and the epilogue. -/
theorem Ast.lower_ok_iff_wellFormed_countdown : ∃ c,
    Compilation.start { input := "countdown.gt", maxForwardRefs := 1, maxOps := some 17 } Host.bare = .ok c ∧
    size countdown.stmts < 4294967296 ∧
    (∃ program session, countdown.lower c.session = (.ok program, session)) ∧
    WellFormed 17 1 countdown.stmts := by
  obtain ⟨c, hstart⟩ : ∃ c, Compilation.start
      { input := "countdown.gt", maxForwardRefs := 1, maxOps := some 17 } Host.bare = .ok c := ⟨_, rfl⟩
  have hsize : size countdown.stmts < 4294967296 := by decide
  have hfirst : (countdown.lower (.start (some 17) 1)).1 = .ok Program.countdown := by decide +kernel
  have hlower : ∃ program session, countdown.lower c.session = (.ok program, session) := by
    rw [Compilation.session_of_start hstart]
    generalize countdown.lower (.start (some 17) 1) = lowered at hfirst ⊢
    exact ⟨_, lowered.2, Prod.ext hfirst rfl⟩
  exact ⟨c, hstart, hsize, hlower, (lower_ok_iff_wellFormed hstart countdown hsize).mp hlower⟩

end GotoLang
