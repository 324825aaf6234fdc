import GotoLang.Proofs.Lowering.Code

/-!
# The visit of the statements

What is known after some statements were visited, and that visiting one more keeps it: the variables
and labels are those that the statements define, and the buffer holds their code once the waiting
transfers get the addresses of a layout that agrees with the tables.
-/
namespace GotoLang
open Source

/-- A transfer is sent elsewhere, any other operation is left. -/
def Op.retarget (target : Addr) (op : Op) : Op :=
  (op.retarget? target).getD op

namespace Source

theorem scope_append (done : List Stmt) (stmt : Stmt) :
    scope (done ++ [stmt]) = widen (scope done) stmt := by
  rw [scope, List.foldl_append]
  rfl

theorem after?_append (label : String) (done : List Stmt) (stmt : Stmt) :
    after? label (done ++ [stmt]) =
      ((after? label done).map (· ++ [stmt])).or (after? label [stmt]) := by
  fun_induction after? label done with
  | case1 => rfl
  | case2 span rest =>
      rw [List.cons_append, after?, if_pos rfl]
      rfl
  | case3 name span rest h ih => rw [List.cons_append, after?, if_neg h, ih]
  | case4 head rest hhead ih =>
      rw [List.cons_append, after?, ih]
      exact hhead

theorem after?_singleton {label : String} {stmt : Stmt} (h : ∀ span, stmt ≠ .label label span) :
    after? label [stmt] = none := by
  cases stmt with
  | label name span =>
      rw [after?, if_neg]
      · rfl
      · intro he
        exact h span (by rw [he])
  | _ => rfl

/-- The label that a statement defines. -/
def definition? : Stmt → Option String
  | .label name _ => some name
  | _ => none

/-- The labels of some statements in front of which stand so many operations. -/
def marks (addr : Nat) : List Stmt → List Mark
  | [] => []
  | stmt :: rest =>
    ((definition? stmt).map fun name => ⟨name, addr.toUInt32⟩).toList ++ marks (addr + stmt.size) rest

theorem marks_append (addr : Nat) (stmts more : List Stmt) :
    marks addr (stmts ++ more) = marks addr stmts ++ marks (addr + size stmts) more := by
  induction stmts generalizing addr with
  | nil => rfl
  | cons stmt rest ih =>
      rw [List.cons_append, marks, marks, ih, size, List.append_assoc, Nat.add_assoc]

theorem marks_of_not_label {addr : Nat} {stmt : Stmt} (h : ∀ name span, stmt ≠ .label name span) :
    marks addr [stmt] = [] := by
  cases stmt with
  | label name span => exact absurd rfl (h name span)
  | _ => rfl

end Source

namespace Lowering

/-- Give waiting transfers their targets. -/
def patch (addr : String → Addr) (ops : List Op) (pending : List LabelTable.Reference) : List Op :=
  pending.foldl (fun ops r => ops.modify r.slot.toNat (Op.retarget (addr r.label))) ops

theorem length_patch (addr : String → Addr) (ops : List Op) (pending : List LabelTable.Reference) :
    (patch addr ops pending).length = ops.length := by
  induction pending generalizing ops with
  | nil => rfl
  | cons r rest ih =>
      rw [patch, List.foldl_cons]
      exact (ih _).trans (List.length_modify _ _ _)

theorem modify_append_left {ops more : List Op} {i : Nat} (f : Op → Op) (h : i < ops.length) :
    (ops ++ more).modify i f = ops.modify i f ++ more := by
  rw [List.modify_eq_take_drop, List.modify_eq_take_drop, List.take_append_of_le_length h.le,
    List.drop_append_of_le_length h.le, List.append_assoc]
  obtain ⟨op, rest, hd⟩ : ∃ op rest, ops.drop i = op :: rest :=
    ⟨_, _, List.drop_eq_getElem_cons h⟩
  rw [hd]
  rfl

theorem modify_length_append (ops : List Op) (op : Op) (f : Op → Op) :
    (ops ++ [op]).modify ops.length f = ops ++ [f op] := by
  rw [List.modify_eq_take_drop, List.take_left, List.drop_left]
  rfl

theorem patch_append {addr : String → Addr} {ops : List Op} (more : List Op)
    {pending : List LabelTable.Reference} (h : ∀ r ∈ pending, r.slot.toNat < ops.length) :
    patch addr (ops ++ more) pending = patch addr ops pending ++ more := by
  induction pending generalizing ops with
  | nil => rfl
  | cons r rest ih =>
      rw [patch, patch, List.foldl_cons, List.foldl_cons, modify_append_left _ (h r (.head _))]
      apply ih
      intro r' hr'
      rw [List.length_modify]
      exact h r' (.tail _ hr')

/-- The variables of a table are those that some statements declare, each at its slot. -/
structure Declared (table : SymbolTable) (done : List Stmt) : Prop where
  scope : ∀ name, (table.symbols.get? name).map Symbol.ty = scope done name
  paired : table.Paired

/-- The labels of a table are those that some statements define, each at the operation that follows. -/
structure Bound (table : LabelTable) (done : List Stmt) : Prop where
  none : ∀ name, table.lookup name = none → after? name done = none
  some : ∀ name addr, table.lookup name = some addr → ∃ before behind span,
    done = before ++ .label name span :: behind ∧ after? name done = .some behind ∧
      addr = (size before).toUInt32
  coherent : table.Coherent
  marks : table.marks.toList = Source.marks 0 done
  distinct : ((Source.marks 0 done).map Mark.name).Nodup

theorem Declared.of_not_declare {table : SymbolTable} {done : List Stmt} {stmt : Stmt}
    (h : Declared table done) (hs : widen (Source.scope done) stmt = Source.scope done) :
    Declared table (done ++ [stmt]) := by
  constructor
  · rw [scope_append, hs]
    exact h.scope
  · exact h.paired

theorem Bound.of_not_label {table : LabelTable} {done : List Stmt} {stmt : Stmt}
    (h : Bound table done) (hs : ∀ name span, stmt ≠ .label name span) :
    Bound table (done ++ [stmt]) := by
  have hmarks : Source.marks 0 (done ++ [stmt]) = Source.marks 0 done := by
    rw [marks_append, marks_of_not_label hs, List.append_nil]
  refine ⟨?_, ?_, h.coherent, h.marks.trans hmarks.symm, hmarks ▸ h.distinct⟩
  · intro name hn
    rw [after?_append, h.none name hn, after?_singleton (hs name)]
    rfl
  · intro name addr ha
    obtain ⟨before, behind, span, rfl, hb, haddr⟩ := h.some name addr ha
    refine ⟨before, behind ++ [stmt], span, by simp, ?_, haddr⟩
    rw [after?_append, hb]
    rfl

/-- A declaration adds one variable. -/
theorem Declared.declare {table table' : SymbolTable} {done : List Stmt} {name : String} {ty : Ty}
    {span : Span} {value : Expr} {symbol : Symbol} (h : Declared table done)
    (hty : value.ty? (Source.scope done) = some ty)
    (hd : SymbolTable.declare name ty span table = .ok symbol table') :
    Declared table' (done ++ [.declare name value span]) := by
  obtain ⟨hfresh, -, rfl⟩ := SymbolTable.declare_eq_ok hd
  refine ⟨?_, h.paired.extended hfresh⟩
  intro other
  rw [scope_append, SymbolTable.get?_extended]
  by_cases ho : other = name
  · subst ho
    simp only [widen, if_pos, hty, Option.map_some]
  · simp only [widen, if_neg ho, if_neg (Ne.symm ho)]
    exact h.scope other

/-- A definition adds one label, at the end of what was visited. -/
theorem Bound.bind {table table' : LabelTable} {done : List Stmt} {label : String} {span : Span}
    (h : Bound table done) (hb : LabelTable.bind label (size done).toUInt32 span table = .ok () table') :
    Bound table' (done ++ [.label label span]) := by
  have hfresh := LabelTable.lookup_eq_none_iff.mpr (LabelTable.bind_eq_ok_iff.mp hb).1
  have hlookup := LabelTable.lookup_of_bind hb
  obtain ⟨hnew, hmarks⟩ := h.coherent.marks_of_bind hb
  have hgrow : Source.marks 0 (done ++ [.label label span]) =
      Source.marks 0 done ++ [⟨label, (size done).toUInt32⟩] := by
    rw [marks_append, Nat.zero_add]
    rfl
  refine ⟨?_, ?_, h.coherent.bind hb, ?_, ?_⟩
  · intro name hn
    rw [hlookup] at hn
    split at hn
    · cases hn
    · next hne =>
        rw [after?_append, h.none name hn, after?_singleton]
        · rfl
        · intro span' he
          cases he
          exact hne rfl
  · intro name addr ha
    rw [hlookup] at ha
    split at ha
    · next he =>
        cases ha
        subst he
        refine ⟨done, [], span, rfl, ?_, rfl⟩
        rw [after?_append, h.none label hfresh, after?, if_pos rfl]
        rfl
    · obtain ⟨before, behind, span', rfl, hafter, haddr⟩ := h.some name addr ha
      refine ⟨before, behind ++ [.label label span], span', by simp, ?_, haddr⟩
      rw [after?_append, hafter]
      rfl
  · rw [hmarks, h.marks, hgrow]
  · rw [← h.coherent.names_marks, h.marks] at hnew
    rw [hgrow, List.map_append]
    refine List.nodup_append.mpr ⟨h.distinct, by simp, ?_⟩
    intro name hname other hother he
    rw [he, List.mem_singleton.mp hother] at hname
    exact hnew hname

/-- What is known once some statements were visited. -/
structure Visited (st : State) (done : List Stmt) : Prop where
  size : st.session.buffer.ops.size = Source.size done
  vars : Declared st.symbols done
  slots : st.symbols.size ≤ st.session.buffer.ops.size
  labels : Bound st.session.labels done
  waiting : ∀ r ∈ st.session.labels.pending.toList, r.slot.toNat < st.session.buffer.ops.size
  /-- Every label that is gone to is bound or waited for. -/
  destinations : ∀ stmt ∈ done, ∀ label, destination? stmt = some label →
    (st.session.labels.lookup label).isSome ∨
      ∃ r ∈ st.session.labels.pending.toList, r.label = label
  code : ∀ layout, Agrees layout st →
    patch layout.addr st.session.buffer.ops.toList st.session.labels.pending.toList =
      Source.code layout done
  typed : ∀ layout, Agrees layout st → ∀ stmt ∈ done, Typed layout.scope stmt

/-- What one more statement adds. The first of its operations are appended as they are; the transfers
among them may wait. -/
structure Adds (st st' : State) (done : List Stmt) (stmt : Stmt) (code : List Op)
    (references : List LabelTable.Reference) : Prop where
  length : code.length = stmt.size
  ops : st'.session.buffer.ops.toList = st.session.buffer.ops.toList ++ code
  pending : st'.session.labels.pending.toList = st.session.labels.pending.toList ++ references
  agrees : ∀ layout, Agrees layout st' → Agrees layout st
  lookup : ∀ name, (st.session.labels.lookup name).isSome → (st'.session.labels.lookup name).isSome
  vars : Declared st'.symbols (done ++ [stmt])
  slots : st'.symbols.size ≤ st'.session.buffer.ops.size
  labels : Bound st'.session.labels (done ++ [stmt])
  waiting : ∀ r ∈ references, r.slot.toNat < st'.session.buffer.ops.size
  destinations : ∀ label, destination? stmt = some label →
    (st'.session.labels.lookup label).isSome ∨ ∃ r ∈ references, r.label = label
  code : ∀ layout, Agrees layout st' → patch layout.addr (Source.code layout done ++ code) references =
    Source.code layout done ++ stmt.code layout
  typed : ∀ layout, Agrees layout st' → Typed layout.scope stmt

theorem Visited.adds {st st' : State} {done : List Stmt} {stmt : Stmt} {code : List Op}
    {references : List LabelTable.Reference} (h : Visited st done)
    (k : Adds st st' done stmt code references) : Visited st' (done ++ [stmt]) := by
  have hsize : st'.session.buffer.ops.size = st.session.buffer.ops.size + code.length := by
    rw [← Array.length_toList, k.ops, List.length_append, Array.length_toList]
  have hone : Source.size [stmt] = stmt.size := rfl
  refine ⟨?_, k.vars, k.slots, k.labels, ?_, ?_, ?_, ?_⟩
  · rw [hsize, h.size, k.length, size_append, hone]
  · intro r hr
    rw [k.pending, List.mem_append] at hr
    rcases hr with hr | hr
    · have := h.waiting r hr
      omega
    · exact k.waiting r hr
  · intro stmt' hs label hl
    rw [List.mem_append, List.mem_singleton] at hs
    rw [k.pending]
    rcases hs with hs | rfl
    · rcases h.destinations stmt' hs label hl with hb | ⟨r, hr, he⟩
      · exact .inl (k.lookup label hb)
      · exact .inr ⟨r, List.mem_append_left _ hr, he⟩
    · rcases k.destinations label hl with hb | ⟨r, hr, he⟩
      · exact .inl hb
      · exact .inr ⟨r, List.mem_append_right _ hr, he⟩
  · intro layout hl
    have hdone := h.code layout (k.agrees layout hl)
    rw [k.ops, k.pending, patch, List.foldl_append, ← patch, ← patch, patch_append code h.waiting,
      hdone, k.code layout hl, code_append]
    simp [Source.code]
  · intro layout hl stmt' hs
    rw [List.mem_append, List.mem_singleton] at hs
    rcases hs with hs | rfl
    · exact h.typed layout (k.agrees layout hl) stmt' hs
    · exact k.typed layout hl

/-- The layout with nothing in it but what is known. -/
def known (st : State) : Layout where
  slot name := ((st.symbols.symbols.get? name).map Symbol.slot).getD 0
  scope name := (st.symbols.symbols.get? name).map Symbol.ty
  addr name := (st.session.labels.lookup name).getD 0

theorem agrees_known (st : State) : Agrees (known st) st := by
  constructor
  · intro name symbol h
    simp only [known, h, Option.map_some, Option.getD_some, true_and]
  · intro name addr h
    simp only [known, h, Option.getD_some]

theorem Visited.scope_known {st : State} {done : List Stmt} (h : Visited st done) :
    (known st).scope = scope done :=
  funext h.vars.scope

/-- The operations of an expression are the same for all layouts that agree with what is known. -/
theorem expr_emits {e : Expr} {st st' : State} {ty : Ty} (h : expr e st = .ok ty st') :
    ∃ code, code.length = e.size ∧ Emits st st' code ∧
      ∀ layout, Agrees layout st → e.code layout = code ∧ e.ty? layout.scope = some ty := by
  have hk := (expr_spec h (agrees_known st)).1
  refine ⟨_, e.length_code _, hk, ?_⟩
  intro layout hl
  obtain ⟨he, ht⟩ := expr_spec h hl
  refine ⟨?_, ht⟩
  have hops := he.ops.symm.trans hk.ops
  exact List.append_cancel_left hops

theorem Visited.emits {st st' : State} {done : List Stmt} {stmt : Stmt} {code : List Op}
    (h : Visited st done) (k : Emits st st' code) (hlen : code.length = stmt.size)
    (hscope : widen (scope done) stmt = scope done) (hlabel : ∀ name span, stmt ≠ .label name span)
    (hdest : destination? stmt = none)
    (hcode : ∀ layout, Agrees layout st → stmt.code layout = code ∧ Typed layout.scope stmt) :
    Visited st' (done ++ [stmt]) := by
  have hagrees : ∀ layout, Agrees layout st' → Agrees layout st := by
    intro layout hl
    refine ⟨?_, ?_⟩
    · rw [← k.symbols]
      exact hl.vars
    · rw [← k.labels]
      exact hl.label
  have hsize : st'.session.buffer.ops.size = st.session.buffer.ops.size + code.length := by
    rw [← Array.length_toList, k.ops, List.length_append, Array.length_toList]
  have hadds : Adds st st' done stmt code [] := by
    refine ⟨hlen, k.ops, ?_, hagrees, ?_, ?_, ?_, ?_, ?_, ?_, ?_, ?_⟩
    · rw [k.labels, List.append_nil]
    · intro name hn
      rwa [k.labels]
    · rw [k.symbols]
      exact h.vars.of_not_declare hscope
    · rw [k.symbols]
      have := h.slots
      omega
    · rw [k.labels]
      exact h.labels.of_not_label hlabel
    · intro r hr
      cases hr
    · intro label hl
      rw [hdest] at hl
      cases hl
    · intro layout hl
      rw [(hcode layout (hagrees layout hl)).1]
      rfl
    · intro layout hl
      exact (hcode layout (hagrees layout hl)).2
  exact h.adds hadds

theorem declare_eq_ok {name : String} {ty : Ty} {span : Span} {st st' : State} {symbol : Symbol}
    (h : declare name ty span st = .ok symbol st') :
    SymbolTable.declare name ty span st.symbols = .ok symbol st'.symbols ∧ st'.session = st.session := by
  obtain ⟨symbols, hd, rfl⟩ := naming_eq_ok.mp h
  exact ⟨hd, rfl⟩

theorem Visited.label {st st' : State} {done : List Stmt} {name : String} {span : Span} {u : Unit}
    (h : Visited st done) (hs : stmt (.label name span) st = .ok u st') :
    Visited st' (done ++ [.label name span]) := by
  obtain ⟨addr, h₁⟩ := discard_eq_ok.mp hs
  obtain ⟨session, h₂, rfl⟩ := emission_eq_ok.mp h₁
  obtain ⟨labels, hb, -, rfl⟩ := Session.bind_eq_ok_iff.mp h₂
  rw [EmissionBuffer.next, h.size] at hb
  have hkept := LabelTable.lookup_bound hb
  have hpending : labels.pending = st.session.labels.pending := by
    rw [(LabelTable.bind_eq_ok_iff.mp hb).2]
  have hadds : Adds st ⟨st.session.bound name labels, st.symbols⟩ done (.label name span) [] [] := by
    refine ⟨rfl, ?_, ?_, ?_, ?_, ?_, h.slots, h.labels.bind hb, ?_, ?_, ?_, ?_⟩
    · exact (List.append_nil _).symm
    · rw [Session.bound, hpending, List.append_nil]
    · intro layout hl
      exact ⟨hl.vars, fun other addr' ho => hl.label other addr' (hkept other addr' ho)⟩
    · intro other ho
      obtain ⟨addr', ho⟩ := Option.isSome_iff_exists.mp ho
      exact Option.isSome_iff_exists.mpr ⟨addr', hkept other addr' ho⟩
    · exact h.vars.of_not_declare rfl
    · intro r hr
      cases hr
    · intro label hl
      cases hl
    · intro layout _
      rfl
    · intro layout _
      trivial
  exact h.adds hadds

theorem Visited.declare {st st' : State} {done : List Stmt} {name : String} {value : Expr}
    {span : Span} {u : Unit} (h : Visited st done)
    (hs : stmt (.declare name value span) st = .ok u st') :
    Visited st' (done ++ [.declare name value span]) := by
  obtain ⟨ty, st₁, h₁, k₁⟩ := bind_eq_ok.mp hs
  obtain ⟨symbol, st₂, h₂, k₂⟩ := bind_eq_ok.mp k₁
  obtain ⟨code, hlen, he, hcode⟩ := expr_emits h₁
  obtain ⟨hd, hsession⟩ := declare_eq_ok h₂
  have hstore := emit_spec k₂
  rw [he.symbols] at hd
  obtain ⟨hfresh, hsymbol, hextended⟩ := SymbolTable.declare_eq_ok hd
  have hops : st'.session.buffer.ops.toList =
      st.session.buffer.ops.toList ++ (code ++ [.store symbol.slot]) := by
    rw [hstore.ops, hsession, he.ops, List.append_assoc]
  have hlabels : st'.session.labels = st.session.labels := by
    rw [hstore.labels, hsession, he.labels]
  have hgrow : st'.session.buffer.ops.size = st.session.buffer.ops.size + (code.length + 1) := by
    rw [← Array.length_toList, hops, List.length_append, List.length_append, Array.length_toList]
    rfl
  have hslots := h.slots
  have hsizes : st'.symbols.size = st.symbols.size + 1 := by
    rw [hstore.symbols, hextended]
    exact Array.size_push _
  have hget : ∀ other, st'.symbols.symbols.get? other =
      if name = other then some symbol else st.symbols.symbols.get? other := by
    rw [hstore.symbols, hextended, hsymbol]
    exact fun other => SymbolTable.get?_extended other
  have hfind : st'.symbols.symbols.get? name = some symbol := by
    rw [hget, if_pos rfl]
  have hagrees : ∀ layout, Agrees layout st' → Agrees layout st := by
    intro layout hl
    constructor
    · intro other found hf
      apply hl.vars
      rw [hget, if_neg, hf]
      rintro rfl
      rw [hfresh] at hf
      cases hf
    · rw [← hlabels]
      exact hl.label
  have hadds : Adds st st' done (.declare name value span) (code ++ [.store symbol.slot]) [] := by
    refine ⟨?_, hops, ?_, hagrees, ?_, ?_, ?_, ?_, ?_, ?_, ?_, ?_⟩
    · rw [List.length_append, hlen]
      rfl
    · rw [hlabels, List.append_nil]
    · intro other ho
      rwa [hlabels]
    · have hty := (hcode (known st) (agrees_known st)).2
      rw [h.scope_known] at hty
      rw [hstore.symbols]
      exact h.vars.declare hty hd
    · omega
    · rw [hlabels]
      exact h.labels.of_not_label fun name' span' he' => by cases he'
    · intro r hr
      cases hr
    · intro label hl
      cases hl
    · intro layout hl
      rw [Stmt.code, (hcode layout (hagrees layout hl)).1, (hl.vars name symbol hfind).1]
      rfl
    · intro layout hl
      refine ⟨ty, (hcode layout (hagrees layout hl)).2, ?_⟩
      rw [(hl.vars name symbol hfind).2, hsymbol]
  exact h.adds hadds

/-- Whether its label is bound or not, a transfer is one more operation and adds no label. -/
theorem Visited.adds_transfer {st st' : State} {done : List Stmt} {stmt : Stmt} {label : String}
    {code : List Op} {target : Op} {references : List LabelTable.Reference} (h : Visited st done)
    (hlen : code.length + 1 = stmt.size) (hscope : widen (scope done) stmt = scope done)
    (hlabel : ∀ name span, stmt ≠ .label name span) (hdest : destination? stmt = some label)
    (hops : st'.session.buffer.ops.toList = st.session.buffer.ops.toList ++ (code ++ [target]))
    (hsymbols : st'.symbols = st.symbols)
    (hbindings : st'.session.labels.bindings = st.session.labels.bindings)
    (horder : st'.session.labels.order = st.session.labels.order)
    (hpending : st'.session.labels.pending.toList =
      st.session.labels.pending.toList ++ references)
    (hwaiting : ∀ r ∈ references, r.slot.toNat < st'.session.buffer.ops.size)
    (hknown : (st'.session.labels.lookup label).isSome ∨ ∃ r ∈ references, r.label = label)
    (hcode : ∀ layout, Agrees layout st →
      patch layout.addr (Source.code layout done ++ (code ++ [target])) references =
        Source.code layout done ++ stmt.code layout ∧ Typed layout.scope stmt) :
    Adds st st' done stmt (code ++ [target]) references := by
  have hgrow : st'.session.buffer.ops.size = st.session.buffer.ops.size + (code.length + 1) := by
    rw [← Array.length_toList, hops, List.length_append, List.length_append, Array.length_toList]
    rfl
  have hlookup : st'.session.labels.lookup = st.session.labels.lookup := by
    funext name
    rw [LabelTable.lookup, hbindings]
    rfl
  have hagrees : ∀ layout, Agrees layout st' → Agrees layout st := by
    intro layout hl
    constructor
    · rw [← hsymbols]
      exact hl.vars
    · rw [← hlookup]
      exact hl.label
  have hbound : Bound st'.session.labels done := by
    refine ⟨?_, ?_, ?_, ?_, h.labels.distinct⟩
    · rw [hlookup]
      exact h.labels.none
    · rw [hlookup]
      exact h.labels.some
    · rw [LabelTable.Coherent, hlookup, horder]
      exact h.labels.coherent
    · rw [LabelTable.marks, hlookup, horder]
      exact h.labels.marks
  refine ⟨?_, hops, hpending, hagrees, ?_, ?_, ?_, hbound.of_not_label hlabel, hwaiting, ?_, ?_, ?_⟩
  · rw [List.length_append]
    exact hlen
  · intro name hn
    rwa [hlookup]
  · rw [hsymbols]
    exact h.vars.of_not_declare hscope
  · have hslots := h.slots
    rw [hsymbols]
    omega
  · intro name hn
    rw [hdest] at hn
    cases hn
    exact hknown
  · intro layout hl
    exact (hcode layout (hagrees layout hl)).1
  · intro layout hl
    exact (hcode layout (hagrees layout hl)).2

/-- A transfer stands behind the operations of its condition. -/
theorem Visited.transfer {st st₁ st' : State} {done : List Stmt} {stmt : Stmt} {code : List Op}
    {make : Addr → Op} {label : String} {span : Span} {addr : Addr} (h : Visited st done)
    (he : Emits st st₁ code)
    (hmake : ∀ old target, (make old).retarget target = make target)
    (hs : emission (Session.emitTransfer make label span) st₁ = .ok addr st')
    (hlen : code.length + 1 = stmt.size) (hscope : widen (scope done) stmt = scope done)
    (hlabel : ∀ name span, stmt ≠ .label name span) (hdest : destination? stmt = some label)
    (hcode : ∀ layout, Agrees layout st →
      stmt.code layout = code ++ [make (layout.addr label)] ∧ Typed layout.scope stmt)
    (hsize : st'.session.buffer.ops.size < 4294967296) : Visited st' (done ++ [stmt]) := by
  obtain ⟨session, ht, hst⟩ := emission_eq_ok.mp hs
  have hsession : st'.session = session := by rw [hst]
  have hsymbols : st'.symbols = st.symbols := by rw [hst, he.symbols]
  rw [← hsession] at ht
  have hpush : ∀ target, st'.session.buffer.ops = st₁.session.buffer.ops.push target →
      st'.session.buffer.ops.toList = st.session.buffer.ops.toList ++ (code ++ [target]) := by
    intro target hops
    rw [hops, Array.toList_push, he.ops, List.append_assoc]
  rcases Session.emitTransfer_eq_ok ht with ⟨-, -, ⟨target, hbound, hnext⟩ | ⟨-, -, hnext⟩⟩
  · have hops : st'.session.buffer.ops = st₁.session.buffer.ops.push (make target) := by
      rw [hnext]
      rfl
    have hlabels : st'.session.labels = st.session.labels := by
      rw [hnext]
      exact he.labels
    rw [he.labels] at hbound
    apply h.adds
    apply h.adds_transfer hlen hscope hlabel hdest (hpush _ hops) hsymbols
    · rw [hlabels]
    · rw [hlabels]
    · rw [hlabels]
      exact (List.append_nil _).symm
    · intro r hr
      cases hr
    · rw [hlabels, hbound]
      exact .inl rfl
    · intro layout hl
      rw [(hcode layout hl).1, hl.label label target hbound]
      exact ⟨rfl, (hcode layout hl).2⟩
  · have hops : st'.session.buffer.ops = st₁.session.buffer.ops.push (make placeholder) := by
      rw [hnext]
      rfl
    have hlabels : st'.session.labels = { st.session.labels with
        pending := st.session.labels.pending.push ⟨st₁.session.buffer.next, label, span⟩ } := by
      rw [hnext, Session.awaiting, he.labels]
    have hgrow : st'.session.buffer.ops.size = st₁.session.buffer.ops.size + 1 := by
      rw [hops, Array.size_push]
    have hlt : st₁.session.buffer.ops.size < UInt32.size := by
      rw [UInt32.size]
      omega
    have hnext : st₁.session.buffer.next.toNat = st₁.session.buffer.ops.size :=
      UInt32.toNat_ofNat_of_lt' hlt
    apply h.adds
    apply h.adds_transfer hlen hscope hlabel hdest (hpush _ hops) hsymbols
    · rw [hlabels]
    · rw [hlabels]
    · rw [hlabels]
      exact Array.toList_push
    · intro r hr
      rw [List.mem_singleton] at hr
      rw [hr, hgrow]
      exact hnext.le.trans_lt (Nat.lt_succ_self _)
    · exact .inr ⟨_, List.mem_singleton_self _, rfl⟩
    · intro layout hl
      have hlength : st₁.session.buffer.ops.size = (Source.code layout done ++ code).length := by
        rw [← Array.length_toList, he.ops, List.length_append, Array.length_toList, h.size,
          List.length_append, Source.length_code]
      refine ⟨?_, (hcode layout hl).2⟩
      rw [(hcode layout hl).1, ← List.append_assoc, ← List.append_assoc, patch, List.foldl_cons,
        List.foldl_nil, hnext, hlength, modify_length_append, hmake]

theorem Visited.stmt {st st' : State} {done : List Stmt} {s : Stmt} {u : Unit} (h : Visited st done)
    (hs : stmt s st = .ok u st') (hsize : st'.session.buffer.ops.size < 4294967296) :
    Visited st' (done ++ [s]) := by
  cases s with
  | label name span => exact h.label hs
  | declare name value span => exact h.declare hs
  | assign name value span =>
      obtain ⟨symbol, st₁, h₁, k₁⟩ := bind_eq_ok.mp hs
      obtain ⟨rfl, hfind⟩ := lookup_spec h₁
      obtain ⟨ty, st₂, h₂, k₂⟩ := bind_eq_ok.mp k₁
      obtain ⟨_, st₃, h₃, k₃⟩ := bind_eq_ok.mp k₂
      obtain ⟨hty, rfl⟩ := check_eq_ok.mp h₃
      obtain ⟨code, hlen, he, hcode⟩ := expr_emits h₂
      apply h.emits (he.trans (emit_spec k₃)) _ rfl (fun name' span' he' => by cases he') rfl
      · intro layout hl
        obtain ⟨hslot, hscope⟩ := hl.vars name symbol hfind
        obtain ⟨hvalue, hvty⟩ := hcode layout hl
        rw [Stmt.code, hvalue, hslot]
        rw [← expect_eq_ok hty] at hvty
        exact ⟨rfl, symbol.ty, hvty, hscope⟩
      · rw [List.length_append, hlen]
        rfl
  | print value span =>
      obtain ⟨ty, st₁, h₁, k₁⟩ := bind_eq_ok.mp hs
      obtain ⟨code, hlen, he, hcode⟩ := expr_emits h₁
      apply h.emits (he.trans (emit_spec k₁)) _ rfl (fun name' span' he' => by cases he') rfl
      · intro layout hl
        obtain ⟨hvalue, hvty⟩ := hcode layout hl
        rw [Stmt.code, hvalue, hvty]
        exact ⟨rfl, ty, hvty⟩
      · rw [List.length_append, hlen]
        rfl
  | goto label span =>
      obtain ⟨addr, h₁⟩ := discard_eq_ok.mp hs
      have he : Emits st st [] := ⟨(List.append_nil _).symm, rfl, rfl, rfl⟩
      apply h.transfer he (fun _ _ => rfl) h₁ rfl rfl (fun name' span' he' => by cases he') rfl _ hsize
      intro layout _
      exact ⟨rfl, trivial⟩
  | ifGoto cond label span =>
      obtain ⟨ty, st₁, h₁, k₁⟩ := bind_eq_ok.mp hs
      obtain ⟨_, st₂, h₂, k₂⟩ := bind_eq_ok.mp k₁
      obtain ⟨hty, rfl⟩ := check_eq_ok.mp h₂
      obtain ⟨addr, h₃⟩ := discard_eq_ok.mp k₂
      obtain ⟨code, hlen, he, hcode⟩ := expr_emits h₁
      have hlen' : code.length + 1 = (Stmt.ifGoto cond label span).size := by rw [hlen, Stmt.size]
      apply h.transfer he (fun _ _ => rfl) h₃ hlen' rfl (fun name' span' he' => by cases he') rfl _ hsize
      intro layout hl
      obtain ⟨hvalue, hvty⟩ := hcode layout hl
      rw [Stmt.code, hvalue]
      rw [← expect_eq_ok hty] at hvty
      exact ⟨rfl, hvty⟩
  | exit value span =>
      obtain ⟨ty, st₁, h₁, k₁⟩ := bind_eq_ok.mp hs
      obtain ⟨_, st₂, h₂, k₂⟩ := bind_eq_ok.mp k₁
      obtain ⟨hty, rfl⟩ := check_eq_ok.mp h₂
      obtain ⟨code, hlen, he, hcode⟩ := expr_emits h₁
      apply h.emits (he.trans (emit_spec k₂)) _ rfl (fun name' span' he' => by cases he') rfl
      · intro layout hl
        obtain ⟨hvalue, hvty⟩ := hcode layout hl
        rw [Stmt.code, hvalue]
        rw [← expect_eq_ok hty] at hvty
        exact ⟨rfl, hvty⟩
      · rw [List.length_append, hlen]
        rfl

/-- So many operations are added, each with a line. -/
def Grows {α : Type} (n : Nat) (x : Lower α) : Prop :=
  ∀ st a st', x st = .ok a st' →
    st'.session.buffer.ops.size = st.session.buffer.ops.size + n ∧
      st'.session.buffer.lines.size = st.session.buffer.lines.size + n

theorem Grows.bind {α β : Type} {n m : Nat} {x : Lower α} {f : α → Lower β} (hx : Grows n x)
    (hf : ∀ a, Grows m (f a)) : Grows (n + m) (x >>= f) := by
  intro st b st'' h
  obtain ⟨a, st', h₁, h₂⟩ := bind_eq_ok.mp h
  have hn := hx st a st' h₁
  have hm := hf a st' b st'' h₂
  omega

theorem Grows.of_buffer {α : Type} {x : Lower α}
    (h : ∀ st a st', x st = .ok a st' → st'.session.buffer = st.session.buffer) : Grows 0 x := by
  intro st a st' hx
  rw [h st a st' hx]
  exact ⟨rfl, rfl⟩

theorem Grows.of_emits {α : Type} {n : Nat} {x : Lower α}
    (h : ∀ st a st', x st = .ok a st' → ∃ code, code.length = n ∧ Emits st st' code) :
    Grows n x := by
  intro st a st' hx
  obtain ⟨code, rfl, he⟩ := h st a st' hx
  refine ⟨?_, he.lines⟩
  rw [← Array.length_toList, he.ops, List.length_append, Array.length_toList]

theorem grows_check {α : Type} (outcome : Except TypingError α) : Grows 0 (check outcome) := by
  apply Grows.of_buffer
  intro st a st' h
  rw [(check_eq_ok.mp h).2]

theorem grows_lookup (name : String) (span : Span) : Grows 0 (lookup name span) := by
  apply Grows.of_buffer
  intro st a st' h
  rw [(lookup_spec h).1]

theorem grows_emit (op : Op) (span : Span) : Grows 1 (emit op span) :=
  .of_emits fun _ _ _ h => ⟨_, rfl, emit_spec h⟩

theorem grows_expr (e : Expr) : Grows e.size (expr e) := by
  apply Grows.of_emits
  intro st ty st' h
  obtain ⟨code, hlen, he, -⟩ := expr_emits h
  exact ⟨code, hlen, he⟩

theorem grows_transfer (make : Addr → Op) (label : String) (span : Span) :
    Grows 1 (discard (emission (Session.emitTransfer make label span))) := by
  intro st u st' h
  obtain ⟨addr, h₁⟩ := discard_eq_ok.mp h
  obtain ⟨session, h₂, rfl⟩ := emission_eq_ok.mp h₁
  rcases Session.emitTransfer_eq_ok h₂ with ⟨-, -, ⟨target, -, rfl⟩ | ⟨-, -, rfl⟩⟩
  · exact ⟨Array.size_push _, Array.size_push _⟩
  · exact ⟨Array.size_push _, Array.size_push _⟩

theorem grows_stmt (s : Stmt) : Grows s.size (stmt s) := by
  cases s with
  | label name span =>
      apply Grows.of_buffer
      intro st u st' h
      obtain ⟨addr, h₁⟩ := discard_eq_ok.mp h
      obtain ⟨session, h₂, rfl⟩ := emission_eq_ok.mp h₁
      obtain ⟨labels, -, -, rfl⟩ := Session.bind_eq_ok_iff.mp h₂
      rfl
  | declare name value span =>
      apply (grows_expr value).bind
      intro ty
      refine Grows.bind (n := 0) (m := 1) (Grows.of_buffer ?_) fun symbol => grows_emit _ span
      intro st symbol st' h
      rw [(declare_eq_ok h).2]
  | assign name value span =>
      rw [Stmt.size, ← Nat.zero_add (value.size + 1)]
      exact (grows_lookup name span).bind fun symbol => (grows_expr value).bind fun ty =>
        (grows_check _).bind (m := 1) fun _ => grows_emit _ span
  | print value span => exact (grows_expr value).bind fun ty => grows_emit _ span
  | goto label span => exact grows_transfer .jump label span
  | ifGoto cond label span =>
      exact (grows_expr cond).bind fun ty => (grows_check _).bind (m := 1) fun _ =>
        grows_transfer .jumpIf label span
  | exit value span =>
      exact (grows_expr value).bind fun ty => (grows_check _).bind (m := 1) fun _ =>
        grows_emit _ span

theorem grows_stmts (rest : List Stmt) : Grows (size rest) (stmts rest) := by
  induction rest with
  | nil =>
      intro st u st' h
      cases h
      exact ⟨rfl, rfl⟩
  | cons s rest ih => exact (grows_stmt s).bind fun _ => ih

theorem Visited.stmts {st st' : State} {done rest : List Stmt} {u : Unit} (h : Visited st done)
    (hs : stmts rest st = .ok u st') (hsize : st'.session.buffer.ops.size < 4294967296) :
    Visited st' (done ++ rest) := by
  induction rest generalizing st done with
  | nil =>
      cases hs
      rwa [List.append_nil]
  | cons s rest ih =>
      obtain ⟨_, st₁, h₁, h₂⟩ := bind_eq_ok.mp hs
      have hgrows := (grows_stmts rest st₁ _ st' h₂).1
      have hone := h.stmt h₁ (by omega)
      rw [List.append_cons]
      exact ih hone h₂

/-- Nothing was emitted, bound or awaited in a session so far. -/
structure Fresh (session : Session) : Prop where
  ops : session.buffer.ops = #[]
  lines : session.buffer.lines = #[]
  pending : session.labels.pending = #[]
  bindings : session.labels.bindings = {}
  order : session.labels.order = #[]

theorem fresh_start (maxOps : Option Nat) (maxForwardRefs : Nat) :
    Fresh (.start maxOps maxForwardRefs) :=
  ⟨rfl, rfl, rfl, rfl, rfl⟩

theorem Fresh.visited {session : Session} (h : Fresh session) : Visited { session } [] := by
  obtain ⟨⟨ops, lines, capacity⟩, ⟨pending, bindings, order, room⟩, stats, journal⟩ := session
  obtain ⟨rfl, rfl, rfl, rfl, rfl⟩ := h
  refine ⟨rfl, ⟨fun _ => rfl, SymbolTable.paired_new⟩, Nat.le_refl 0,
    ⟨fun _ _ => rfl, ?_, LabelTable.coherent_new room, ?_, .nil⟩, ?_, ?_, ?_, ?_⟩
  · intro name addr h
    cases h
  · simp [LabelTable.marks, marks]
  · intro r hr
    cases hr
  · intro stmt hs
    cases hs
  · intro layout _
    rfl
  · intro layout _ stmt hs
    cases hs

end Lowering

end GotoLang
