import GotoLang.Proofs.Behaviour
import GotoLang.Proofs.Lowering.Resolve

/-!
# Lowering keeps the meaning

A source program and the stack machine meet between statements: the machine stands at the first
operation of the statement that is next, its stack is empty, and the slots hold the values of the
variables. The code of an expression puts its value on the stack, or ends where the expression divides
by zero. A label has no code, so the source passes it alone.
-/
namespace GotoLang
open Source Machine

/-- A sequence of operations stands at an address. -/
def Op.StandsAt (ops : Array Op) (addr : Nat) (code : List Op) : Prop :=
  ∀ i op, code[i]? = some op → ops[addr + i]? = some op

namespace Op.StandsAt
variable {ops : Array Op} {addr : Nat} {code more : List Op} {op : Op}

theorem left (h : StandsAt ops addr (code ++ more)) : StandsAt ops addr code := by
  intro i op hi
  apply h i op
  rw [List.getElem?_append_left (List.getElem?_eq_some_iff.mp hi).1, hi]

theorem right (h : StandsAt ops addr (code ++ more)) : StandsAt ops (addr + code.length) more := by
  intro i op hi
  rw [Nat.add_assoc]
  apply h (code.length + i) op
  rw [List.getElem?_append_right (Nat.le_add_right _ _), Nat.add_sub_cancel_left, hi]

theorem head (h : StandsAt ops addr (op :: more)) : ops[addr]? = some op :=
  h 0 op rfl

theorem tail (h : StandsAt ops addr (op :: more)) : StandsAt ops (addr + 1) more := by
  have hone : StandsAt ops addr ([op] ++ more) := h
  exact hone.right

theorem of_toList {before : List Op} (h : ops.toList = before ++ (code ++ more)) :
    StandsAt ops before.length code := by
  intro i op hi
  rw [← Array.getElem?_toList, h, List.getElem?_append_right (Nat.le_add_right _ _),
    Nat.add_sub_cancel_left, List.getElem?_append_left (List.getElem?_eq_some_iff.mp hi).1, hi]

end Op.StandsAt

/-- The slots of a machine hold the values of the variables in scope. -/
def Layout.Holds (layout : Layout) (slots : Array Word) (store : Store) : Prop :=
  ∀ name ty, layout.scope name = some ty → slots[(layout.slot name).toNat]? = some (store name)

section
variable {layout : Layout} {ops : Array Op} {store : Store}

theorem Expr.typed_unary {op : UnaryOp} {operand : Expr} {span : Span} {ty : Ty}
    (h : (Expr.unary op operand span).ty? layout.scope = some ty) :
    operand.ty? layout.scope = some op.ty ∧ ty = op.ty := by
  rw [ty?] at h
  split at h
  · next ho =>
      cases h
      exact ⟨ho, rfl⟩
  · cases h

theorem Expr.typed_binary {op : BinaryOp} {lhs rhs : Expr} {span : Span} {ty : Ty}
    (h : (Expr.binary op lhs rhs span).ty? layout.scope = some ty) :
    ∃ a b, lhs.ty? layout.scope = some a ∧ rhs.ty? layout.scope = some b ∧
      accepts a b op = true ∧ ty = op.resultTy := by
  obtain ⟨a, ha, h₁⟩ := Option.bind_eq_some_iff.mp h
  obtain ⟨b, hb, h₂⟩ := Option.bind_eq_some_iff.mp h₁
  split at h₂
  · next hop =>
      cases h₂
      exact ⟨a, b, ha, hb, hop, rfl⟩
  · cases h₂

/-- The code of an expression leaves its value on top of the stack. -/
theorem Expr.moves_code {e : Expr} {m : Machine} {ty : Ty} {value : Word}
    (hcode : Op.StandsAt ops m.pc (e.code layout)) (hslots : layout.Holds m.slots store)
    (hty : e.ty? layout.scope = some ty) (hv : e.eval? store = some value) :
    Relation.TransGen (Moves (move ops)) m
      { m with pc := m.pc + e.size, stack := value :: m.stack } := by
  induction e generalizing m ty value with
  | int n span =>
      cases hv
      exact .single (moves_push hcode.head)
  | bool b span =>
      cases hv
      rw [truth_eq]
      exact .single (moves_push hcode.head)
  | var name span =>
      cases hv
      exact .single (moves_load hcode.head (hslots name ty hty))
  | unary op operand span ih =>
      obtain ⟨a, ha, rfl⟩ := Option.map_eq_some_iff.mp hv
      have hop := hcode.right.head
      rw [length_code] at hop
      have hmove := ih hcode.left hslots (typed_unary hty).1 ha
      rw [← op.eval_eq]
      exact hmove.tail (moves_unary hop rfl)
  | binary op lhs rhs span ihl ihr =>
      obtain ⟨a, ha, hv₁⟩ := Option.bind_eq_some_iff.mp hv
      obtain ⟨b, hb, hv₂⟩ := Option.bind_eq_some_iff.mp hv₁
      obtain ⟨tl, tr, hl, hr, -, -⟩ := typed_binary hty
      have hop := hcode.right.head
      have hrhs := hcode.left.right
      rw [List.length_append, length_code, length_code] at hop
      rw [length_code] at hrhs
      have hmoveL := ihl hcode.left.left hslots hl ha
      have hmoveR := ihr (m := { m with pc := m.pc + lhs.size, stack := a :: m.stack }) hrhs hslots hr hb
      rw [← op.eval?_eq] at hv₂
      rw [← Nat.add_assoc] at hop
      have hmove := (hmoveL.trans hmoveR).tail (moves_binary hop rfl hv₂)
      simpa only [size, Nat.add_assoc] using hmove

/-- The code of an expression that divides by zero ends there. -/
theorem Expr.ends_code {e : Expr} {m : Machine} {ty : Ty}
    (hcode : Op.StandsAt ops m.pc (e.code layout)) (hslots : layout.Holds m.slots store)
    (hty : e.ty? layout.scope = some ty) (hv : e.eval? store = none) (hm : m.Reliable) :
    Ends (move ops) m ⟨.ok trapStatus, m.out.bytes, m.err.bytes ++ Bytes.ofText trapMessage⟩ := by
  induction e generalizing m ty with
  | int n span => cases hv
  | bool b span => cases hv
  | var name span => cases hv
  | unary op operand span ih =>
      have ho : operand.eval? store = none := Option.map_eq_none_iff.mp hv
      exact ih hcode.left hslots (typed_unary hty).1 ho hm
  | binary op lhs rhs span ihl ihr =>
      obtain ⟨tl, tr, hl, hr, -, -⟩ := typed_binary hty
      have hop := hcode.right.head
      have hrhs := hcode.left.right
      rw [List.length_append, length_code, length_code, ← Nat.add_assoc] at hop
      rw [length_code] at hrhs
      cases ha : lhs.eval? store with
      | none => exact ihl hcode.left.left hslots hl ha hm
      | some a =>
          have hmoveL := moves_code hcode.left.left hslots hl ha
          apply Ends.before hmoveL.to_reflTransGen
          cases hb : rhs.eval? store with
          | none => exact ihr hrhs hslots hr hb ⟨hm.out, hm.err⟩
          | some b =>
              have hmoveR : Relation.TransGen (Moves (move ops))
                  { m with pc := m.pc + lhs.size, stack := a :: m.stack }
                  { m with pc := m.pc + lhs.size + rhs.size, stack := b :: a :: m.stack } :=
                moves_code hrhs hslots hr hb
              have hv' : op.eval? a b = none := by
                rw [eval?, ha, hb] at hv
                rw [op.eval?_eq]
                exact hv
              apply Ends.before hmoveR.to_reflTransGen
              exact ends_trap hop rfl hv' ⟨hm.out, hm.err⟩

end

namespace Lowering

theorem text_eq (value : Word) (ty : Ty) : text value ty = printed value ty := by
  cases ty with
  | int => rfl
  | bool =>
      simp only [text, printed, bne_iff_ne]
      split <;> rfl

/-- The same status and the same bytes. -/
inductive Agree : Result → Ending → Prop
  | exited (status : Word) (out err : Bytes) : Agree (.exited status out err) ⟨.ok status, out, err⟩

/-- A source program is about to run a statement, and a machine stands before its code. -/
structure Meet (layout : Layout) (stmts : List Stmt) (s : Source.State) (m : Machine) : Prop where
  place : ∃ done, stmts = done ++ s.rest ∧ m.pc = size done
  stack : m.stack = []
  slots : layout.Holds m.slots s.store
  out : m.out.bytes = s.out
  err : m.err.bytes = s.err
  reliable : m.Reliable

variable {layout : Layout} {stmts : List Stmt} {program : Program} {s : Source.State} {m : Machine}

/-- Both go on to meet again, or both end alike. -/
def Goes (layout : Layout) (stmts : List Stmt) (ops : Array Op)
    (t : Transition Source.State Result) (m : Machine) : Prop :=
  (∃ r q, t = .stop r ∧ Ends (move ops) m q ∧ Agree r q) ∨
    ∃ s' m', t = .next s' ∧ Relation.TransGen (Moves (move ops)) m m' ∧ Meet layout stmts s' m'

theorem Goes.evaluate {rest : List Stmt} {e : Expr} {ty : Ty} {use : Word → Transition Source.State Result}
    (hm : Meet layout stmts s m) (hcode : Op.StandsAt program.ops m.pc (e.code layout))
    (hty : e.ty? layout.scope = some ty)
    (hnext : ∀ v, Goes layout stmts program.ops (use v) { m with pc := m.pc + e.size, stack := [v] }) :
    Goes layout stmts program.ops (({ s with rest } : Source.State).evaluate e use) m := by
  unfold State.evaluate
  cases hv : e.eval? s.store with
  | none =>
      have hends := Expr.ends_code hcode hm.slots hty hv hm.reliable
      rw [hm.out, hm.err] at hends
      exact .inl ⟨_, _, rfl, hends, .exited _ _ _⟩
  | some v =>
      have hmove := Expr.moves_code hcode hm.slots hty hv
      rw [hm.stack] at hmove
      rcases hnext v with ⟨r, q, hr, hq, ha⟩ | ⟨s', m', hs, ht, hm'⟩
      · exact .inl ⟨r, q, hr, hq.before hmove.to_reflTransGen, ha⟩
      · exact .inr ⟨s', m', hs, hmove.trans ht, hm'⟩

theorem Lowered.standsAt {done rest : List Stmt} {stmt : Stmt} (hl : Lowered layout stmts program)
    (hs : stmts = done ++ stmt :: rest) :
    Op.StandsAt program.ops (size done) (stmt.code layout) := by
  have hops : program.ops.toList =
      code layout done ++ (stmt.code layout ++ (code layout rest ++ [.push 0, .exit])) := by
    rw [hl.ops, hs, code_append]
    simp [code]
  have h := Op.StandsAt.of_toList hops
  rwa [Source.length_code] at h

/-- Different variables live in different slots. -/
theorem Lowered.holds_assign (hl : Lowered layout stmts program) {slots : Array Word} {store : Store}
    {name : String} {ty : Ty} (h : layout.Holds slots store) (hn : layout.scope name = some ty)
    (value : Word) :
    layout.Holds (slots.setIfInBounds (layout.slot name).toNat value)
      fun other => if other = name then value else store other := by
  intro other ty' ho
  rw [Array.getElem?_setIfInBounds]
  split
  · next heq =>
      have hname := hl.slot name ty hn
      rw [heq, hl.slot other ty' ho] at hname
      cases hname
      have hlt := (Array.getElem?_eq_some_iff.mp (h name ty hn)).1
      simp only [if_pos, hlt]
  · next hne =>
      have hdiff : other ≠ name := by
        intro he
        exact hne (by rw [he])
      simp only [if_neg hdiff]
      exact h other ty' ho

/-- Whether a variable is declared or assigned to, its new value is stored in its slot. -/
theorem Goes.assign {rest : List Stmt} {name : String} {value : Expr} (hl : Lowered layout stmts program)
    (hm : Meet layout stmts s m)
    (hcode : Op.StandsAt program.ops m.pc (value.code layout ++ [.store (layout.slot name)]))
    (hty : ∃ ty, value.ty? layout.scope = some ty ∧ layout.scope name = some ty)
    (hplace : ∃ done, stmts = done ++ rest ∧ m.pc + (value.size + 1) = size done) :
    Goes layout stmts program.ops (({ s with rest } : Source.State).evaluate value fun v =>
      .next (({ s with rest } : Source.State).assign name v)) m := by
  obtain ⟨ty, hv, hn⟩ := hty
  apply Goes.evaluate hm hcode.left hv
  intro v
  have hslot := (Array.getElem?_eq_some_iff.mp (hm.slots name ty hn)).1
  have hop := hcode.right.head
  rw [Expr.length_code] at hop
  refine .inr ⟨_, _, rfl, .single (moves_store hop rfl hslot), hplace, rfl, ?_, hm.out, hm.err,
    ⟨hm.reliable.out, hm.reliable.err⟩⟩
  exact hl.holds_assign hm.slots hn v

theorem Meet.goto {name : String} {stmt : Stmt} (hl : Lowered layout stmts program)
    (hm : Meet layout stmts s m) (hs : stmt ∈ stmts) (hd : destination? stmt = some name) :
    ∃ rest', after? name stmts = some rest' ∧
      Meet layout stmts { s with rest := rest' } (m.withPc (layout.addr name).toNat) := by
  obtain ⟨before, behind, span, hstmts, hafter, haddr⟩ := hl.label stmt hs name hd
  refine ⟨behind, hafter, ?_, hm.stack, hm.slots, hm.out, hm.err, ⟨hm.reliable.out, hm.reliable.err⟩⟩
  refine ⟨before ++ [.label name span], by rw [hstmts, List.append_cons], ?_⟩
  rw [size_append]
  exact haddr

/-- The machine carries out the code of a statement as the source carries out the statement. -/
theorem goes_perform {done rest : List Stmt} {stmt : Stmt} (hl : Lowered layout stmts program)
    (hm : Meet layout stmts s m) (hs : stmts = done ++ stmt :: rest) (hpc : m.pc = size done)
    (hlabel : ∀ name span, stmt ≠ .label name span) :
    Goes layout stmts program.ops (State.perform stmts { s with rest } stmt) m := by
  have hcode := hl.standsAt hs
  have hmem : stmt ∈ stmts := by
    rw [hs]
    exact List.mem_append_right _ (.head _)
  have hty := hl.typed stmt hmem
  have hplace : stmts = (done ++ [stmt]) ++ rest := by rw [hs, List.append_cons]
  have hnext : m.pc + stmt.size = size (done ++ [stmt]) := by
    rw [size_append, hpc]
    rfl
  rw [← hpc] at hcode
  cases stmt with
  | label name span => exact absurd rfl (hlabel name span)
  | declare name value span => exact .assign hl hm hcode hty ⟨_, hplace, hnext⟩
  | assign name value span => exact .assign hl hm hcode hty ⟨_, hplace, hnext⟩
  | print value span =>
      obtain ⟨ty, hv⟩ := hty
      apply Goes.evaluate hm hcode.left hv
      intro v
      have hop := hcode.right.head
      rw [Expr.length_code, hv, Option.getD_some] at hop
      rw [← hl.scope, hv]
      refine .inr ⟨_, _, rfl, .single (moves_print hop rfl hm.reliable.out), ⟨_, hplace, hnext⟩, rfl,
        hm.slots, ?_, hm.err, ⟨hm.reliable.out.append _, hm.reliable.err⟩⟩
      rw [Sink.append, hm.out, text_eq]
  | goto name span =>
      obtain ⟨rest', hafter, hmeet⟩ := hm.goto hl hmem rfl
      refine .inr ⟨_, _, ?_, .single (moves_jump hcode.head), hmeet⟩
      rw [State.perform, State.goto, hafter]
      rfl
  | ifGoto cond name span =>
      apply Goes.evaluate hm hcode.left hty
      intro v
      have hop := hcode.right.head
      rw [Expr.length_code] at hop
      have hmove := moves_jumpIf (m := { m with pc := m.pc + cond.size, stack := [v] }) hop rfl
      by_cases hv : v = 0
      · subst hv
        exact .inr ⟨_, _, rfl, .single hmove, ⟨_, hplace, hnext⟩, rfl, hm.slots, hm.out, hm.err,
          ⟨hm.reliable.out, hm.reliable.err⟩⟩
      · obtain ⟨rest', hafter, hmeet⟩ := hm.goto hl hmem rfl
        rw [if_pos (bne_iff_ne.mpr hv)] at hmove
        refine .inr ⟨_, _, ?_, .single hmove, hmeet.place, rfl, hmeet.slots, hmeet.out, hmeet.err,
          ⟨hm.reliable.out, hm.reliable.err⟩⟩
        rw [if_pos hv, State.goto, hafter]
        rfl
  | exit value span =>
      apply Goes.evaluate hm hcode.left hty
      intro v
      have hop := hcode.right.head
      rw [Expr.length_code] at hop
      have hends := ends_exit (m := { m with pc := m.pc + value.size, stack := [v] }) hop rfl
        hm.reliable.out
      refine .inl ⟨_, _, rfl, hends, ?_⟩
      rw [hm.out, hm.err]
      exact .exited v s.out s.err

/-- Behind the last statement the machine exits with status zero. -/
theorem Meet.ends (hl : Lowered layout stmts program) (hm : Meet layout stmts s m)
    (hrest : s.rest = []) : Ends (move program.ops) m ⟨.ok 0, s.out, s.err⟩ := by
  obtain ⟨done, hs, hpc⟩ := hm.place
  rw [hrest, List.append_nil] at hs
  have hops : program.ops.toList = code layout stmts ++ ([.push 0, .exit] ++ []) := by
    rw [hl.ops, List.append_nil]
  have hcode := Op.StandsAt.of_toList hops
  rw [Source.length_code, hs, ← hpc] at hcode
  have hexit := ends_exit (m := { m with pc := m.pc + 1, stack := 0 :: m.stack }) hcode.tail.head rfl
    hm.reliable.out
  rw [hm.out, hm.err] at hexit
  exact hexit.before (.single (moves_push hcode.head))

theorem meeting (hl : Lowered layout stmts program) :
    Meeting (State.step stmts) (move program.ops) Agree (Meet layout stmts) := by
  intro s m hm
  obtain ⟨rest, store, out, err⟩ := s
  -- The source passes labels alone, so the statements that are left are what the induction is on.
  induction rest with
  | nil =>
      exact .inl ⟨_, _, .stop rfl, hm.ends hl rfl, .exited 0 out err⟩
  | cons stmt rest ih =>
      obtain ⟨done, hs, hpc⟩ := hm.place
      by_cases hlabel : ∃ name span, stmt = .label name span
      · obtain ⟨name, span, rfl⟩ := hlabel
        have hstep : Moves (State.step stmts) ⟨.label name span :: rest, store, out, err⟩
            ⟨rest, store, out, err⟩ := rfl
        have hm' : Meet layout stmts ⟨rest, store, out, err⟩ m := by
          refine ⟨⟨done ++ [.label name span], ?_, ?_⟩, hm.stack, hm.slots, hm.out, hm.err, hm.reliable⟩
          · rw [hs, List.append_cons]
          · rw [size_append, hpc]
            rfl
        rcases ih hm' with ⟨r, q, hr, hq, ha⟩ | ⟨s', m', hs', hm'', hmeet⟩
        · exact .inl ⟨r, q, hr.before (.single hstep), hq, ha⟩
        · exact .inr ⟨s', m', .head hstep hs', hm'', hmeet⟩
      · have hgoes := goes_perform hl hm hs hpc fun name span he => hlabel ⟨name, span, he⟩
        rcases hgoes with ⟨r, q, hr, hq, ha⟩ | ⟨s', m', hs', hm', hmeet⟩
        · exact .inl ⟨r, q, .stop hr, hq, ha⟩
        · exact .inr ⟨s', m', .single hs', hm', hmeet⟩

theorem meet_start (hl : Lowered layout stmts program) {out err : Sink} (ho : out.Reliable)
    (he : err.Reliable) :
    Meet layout stmts { rest := stmts, out := out.bytes, err := err.bytes }
      (.start program out err) := by
  refine ⟨⟨[], rfl, rfl⟩, rfl, ?_, rfl, rfl, ⟨ho, he⟩⟩
  intro name ty hn
  have hlt := (Array.getElem?_eq_some_iff.mp (hl.slot name ty hn)).1
  rw [Machine.start, Array.getElem?_replicate, if_pos hlt]

end Lowering

/-- A lowered program does what its source means: it stops if and only if the source stops, with the
same status and the same bytes, and it never faults. -/
theorem Ast.lower_preserves_meaning (ast : Ast) (maxOps : Option Nat) (maxForwardRefs : Nat)
    (program : Program) (session : Session) (out err : Sink) (hout : out.Reliable)
    (herr : err.Reliable) (h : ast.lower (.start maxOps maxForwardRefs) = (.ok program, session))
    (hsize : program.ops.size < 4294967296) :
    let start : Source.State := { rest := ast.stmts, out := out.bytes, err := err.bytes }
    (∀ status written complained,
      Ends (State.step ast.stmts) start (.exited status written complained) ↔
        program.EndsWith out err ⟨.ok status, written, complained⟩) ∧
    ¬ Ends (State.step ast.stmts) start .meaningless ∧
    (∀ fault written complained, ¬ program.EndsWith out err ⟨.error fault, written, complained⟩) ∧
    (Diverges (State.step ast.stmts) start ↔ program.RunsForever out err) := by
  obtain ⟨layout, hl⟩ := ast.lower_spec (Lowering.fresh_start maxOps maxForwardRefs) h hsize
  have hmeeting := Lowering.meeting hl
  have hstart := Lowering.meet_start hl hout herr
  refine ⟨?_, ?_, ?_, ?_⟩
  · intro status written complained
    rw [Program.endsWith_iff]
    constructor
    · intro hr
      obtain ⟨q, hq, ha⟩ := hmeeting.ends hstart hr
      cases ha
      exact hq
    · intro hq
      obtain ⟨r, hr, ha⟩ := hmeeting.swap.ends hstart hq
      cases ha
      exact hr
  · intro hr
    obtain ⟨q, -, ha⟩ := hmeeting.ends hstart hr
    cases ha
  · intro fault written complained hq
    rw [Program.endsWith_iff] at hq
    obtain ⟨r, -, ha⟩ := hmeeting.swap.ends hstart hq
    cases ha
  · rw [Program.runsForever_iff]
    exact hmeeting.diverges_iff hstart

/-- Prints the quotients of six by the numbers from three down to one, with a jump forward over a loop
and one back to its start. -/
def Ast.countdown : Ast where
  stmts := [
    .declare "i" (.int 3 ⟨1, 9⟩) ⟨1, 1⟩,
    .label "again" ⟨2, 1⟩,
    .ifGoto (.binary (.cmp .eq) (.var "i" ⟨3, 4⟩) (.int 0 ⟨3, 9⟩) ⟨3, 6⟩) "done" ⟨3, 1⟩,
    .print (.binary (.arith .div) (.int 6 ⟨4, 7⟩) (.var "i" ⟨4, 11⟩) ⟨4, 9⟩) ⟨4, 1⟩,
    .assign "i" (.binary (.arith .sub) (.var "i" ⟨5, 5⟩) (.int 1 ⟨5, 9⟩) ⟨5, 7⟩) ⟨5, 1⟩,
    .goto "again" ⟨6, 1⟩,
    .label "done" ⟨7, 1⟩]
  stop := ⟨8, 1⟩

def Program.countdown : Program where
  ops := #[.push 3, .store 0, .load 0, .push 0, .binary (.cmp .eq), .jumpIf 15, .push 6, .load 0,
    .binary (.arith .div), .print .int, .load 0, .push 1, .binary (.arith .sub), .store 0, .jump 2,
    .push 0, .exit]
  lines := #[1, 1, 3, 3, 3, 3, 4, 4, 4, 4, 5, 5, 5, 5, 6, 8, 8]
  slots := #[⟨"i", .int⟩]
  marks := #[⟨"again", 2⟩, ⟨"done", 15⟩]

theorem Ast.countdown_preserves_meaning : ∃ session,
    countdown.lower (.start none 8) = (.ok Program.countdown, session) ∧
    (∀ status written complained,
      Ends (State.step countdown.stmts) { rest := countdown.stmts } (.exited status written complained) ↔
        Program.countdown.EndsWith {} {} ⟨.ok status, written, complained⟩) ∧
    (Diverges (State.step countdown.stmts) { rest := countdown.stmts } ↔
      Program.countdown.RunsForever {} {}) := by
  have hfirst : (countdown.lower (.start none 8)).1 = .ok Program.countdown := by decide +kernel
  generalize h : countdown.lower (.start none 8) = lowered at hfirst
  obtain ⟨result, session⟩ := lowered
  obtain rfl : result = .ok Program.countdown := hfirst
  obtain ⟨hends, -, -, hforever⟩ := lower_preserves_meaning countdown none 8 Program.countdown session
    {} {} ⟨rfl, rfl⟩ ⟨rfl, rfl⟩ h (by decide)
  exact ⟨session, rfl, hends, hforever⟩

end GotoLang
