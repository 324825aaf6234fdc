import GotoLang.Proofs.Lowering.Acceptance
import GotoLang.Proofs.Lowering.Meaning
import GotoLang.Proofs.Optimize.Passes

/-!
# Jumps to the next label

A jump to the label right behind it can be left out. What is left obeys the rules if the whole did, and has
the same meaning: the two programs run side by side, statement by statement, where the one jumps to the label
while the other one passes it. So their machine programs behave alike at every level of optimization, however
differently the addresses fall and the passes treat them.
-/
namespace GotoLang
open Source

/-- An ending with a status is like no other one. -/
theorem Ending.eq_of_alike_ok {ending : Ending} {status : Word} {out err : Bytes}
    (h : ending.Alike ⟨.ok status, out, err⟩) : ending = ⟨.ok status, out, err⟩ := by
  obtain ⟨result, out', err'⟩ := ending
  cases result with
  | ok status' => exact h
  | error fault => cases congrArg Ending.result h

theorem Program.runsForever_iff_not_endsWith {program : Program} {out err : Sink} :
    program.RunsForever out err ↔ ∀ ending, ¬ program.EndsWith out err ending := by
  simp only [runsForever_iff, diverges_iff_not_ends, endsWith_iff]

theorem Lowering.Lowered.endsWith_optimize {layout : Layout} {stmts : List Stmt} {program : Program}
    (hl : Lowered layout stmts program) (hsize : program.ops.size < 4294967296) (level : OptLevel)
    {out err : Sink} (hout : out.Reliable) (herr : err.Reliable) {ending : Ending} :
    (program.optimize level).1.EndsWith out err ending ↔
      ∃ result, Ends (State.step stmts) { rest := stmts, out := out.bytes, err := err.bytes } result ∧
        Agree result ending := by
  have hreg : program.Regular := ⟨hsize, hl.lines⟩
  have hpasses := (Program.preserves_of_changes hreg (Program.changes_optimize hreg level)).endsWith_iff out err
  have hstart := meet_start hl hout herr
  constructor
  · intro hends
    obtain ⟨before, hbefore, halike⟩ := (hpasses ending).mpr ⟨ending, hends, .refl ending⟩
    obtain ⟨result, hresult, hagree⟩ := (meeting hl).swap.ends hstart (Program.endsWith_iff.mp hbefore)
    -- The program was lowered from a source, so it ended with a status.
    cases hagree with
    | exited status written complained =>
        obtain rfl := Ending.eq_of_alike_ok halike.symm
        exact ⟨_, hresult, .exited status written complained⟩
  · rintro ⟨result, hresult, hagree⟩
    obtain ⟨before, hbefore, hagree'⟩ := (meeting hl).ends hstart hresult
    cases hagree with
    | exited status written complained =>
        cases hagree'
        obtain ⟨after, hafter, halike⟩ := (hpasses _).mp ⟨_, Program.endsWith_iff.mpr hbefore, .refl _⟩
        exact Ending.eq_of_alike_ok halike ▸ hafter

namespace Source

section
variable {label : String} {jump : Span} {before behind : List Stmt} {limit capacity : Nat}

theorem declarations_append (first second : List Stmt) :
    declarations (first ++ second) = declarations first ++ declarations second :=
  List.filterMap_append

theorem labels_append (first second : List Stmt) : labels (first ++ second) = labels first ++ labels second :=
  List.filterMap_append

theorem labels_without_goto : labels (before ++ .goto label jump :: behind) = labels (before ++ behind) := by
  rw [labels_append, labels_append]
  rfl

theorem forward_without_goto : forward (before ++ behind) ≤ forward (before ++ .goto label jump :: behind) := by
  induction before with
  | nil => exact Nat.le_add_left _ _
  | cons stmt before ih =>
      rw [List.cons_append, List.cons_append, forward, forward, labels_without_goto]
      exact Nat.add_le_add_left ih _

/-- A statement has the same declarations before it, with the jump and without. -/
theorem visible_without_goto
    (h : ∀ done stmt rest, before ++ .goto label jump :: behind = done ++ stmt :: rest →
      ∀ name ∈ stmt.uses, name ∈ declarations done)
    {done rest : List Stmt} {stmt : Stmt} (hsplit : before ++ behind = done ++ stmt :: rest)
    {name : String} (hname : name ∈ stmt.uses) : name ∈ declarations done := by
  rcases List.append_eq_append_iff.mp hsplit with ⟨front, rfl, hfront⟩ | ⟨front, rfl, hfront⟩
  · -- The statement stands behind the jump.
    have hdone := h (before ++ .goto label jump :: front) stmt rest (by rw [hfront]; simp) name hname
    rw [declarations_append] at hdone ⊢
    exact hdone
  · cases front with
    | nil =>
        have hdone := h (done ++ [.goto label jump]) stmt rest (by rw [hfront]; simp) name hname
        have hnone : declarations [.goto label jump] = [] := rfl
        rwa [declarations_append, hnone, List.append_nil] at hdone
    | cons first front =>
        obtain ⟨rfl, rfl⟩ := List.cons.inj hfront
        exact h done stmt (front ++ .goto label jump :: behind) (by simp) name hname

/-- No rule asks for a jump. -/
theorem WellFormed.without_goto (h : WellFormed limit capacity (before ++ .goto label jump :: behind)) :
    WellFormed limit capacity (before ++ behind) := by
  have hsub : ∀ stmt ∈ before ++ behind, stmt ∈ before ++ .goto label jump :: behind := by
    intro stmt hstmt
    rw [List.mem_append] at hstmt ⊢
    exact hstmt.imp_right (List.mem_cons_of_mem _)
  refine ⟨?_, ?_, ?_, ?_, ?_, ?_, ?_⟩
  · intro done stmt rest hsplit name hname
    exact visible_without_goto h.visible hsplit hname
  · have hdeclared := h.declared
    rw [declarations_append] at hdeclared ⊢
    exact hdeclared
  · obtain ⟨types, htyped⟩ := h.typed
    exact ⟨types, fun stmt hstmt => htyped stmt (hsub stmt hstmt)⟩
  · exact labels_without_goto ▸ h.labelled
  · intro stmt hstmt
    exact labels_without_goto ▸ h.defined stmt (hsub stmt hstmt)
  · exact forward_without_goto.trans h.forward
  · have hsize := h.size
    simp only [size_append, Source.size] at hsize ⊢
    omega

/-- Labels are distinct, so a jump to the label right behind it finds no other one. -/
theorem WellFormed.notMem_labels {mark : Span}
    (h : WellFormed limit capacity (before ++ .goto label jump :: .label label mark :: behind)) :
    label ∉ labels before := by
  have hlabelled := h.labelled
  rw [labels_append, List.nodup_append] at hlabelled
  intro hmem
  exact hlabelled.2.2 label hmem label List.mem_cons_self rfl

end

/-- What is left of two programs, one with a jump before its last statements and one without. -/
inductive Shortened (label : String) (jump : Span) (behind : List Stmt) : List Stmt → List Stmt → Prop where
  | passed (rest : List Stmt) : Shortened label jump behind rest rest
  | ahead (front : List Stmt) :
      Shortened label jump behind (front ++ .goto label jump :: behind) (front ++ behind)

/-- Two states that differ in what is left to do only, and there in the jump. -/
def Beside (label : String) (jump : Span) (behind : List Stmt) (s s' : State) : Prop :=
  ∃ rest, Shortened label jump behind s.rest rest ∧ s' = { s with rest }

/-- One step of both programs: both stop with the same result, or both go on. -/
inductive Abreast (R : State → State → Prop) : Transition State Result → Transition State Result → Prop where
  | next {s s' : State} (h : R s s') : Abreast R (.next s) (.next s')
  | stop (result : Result) : Abreast R (.stop result) (.stop result)

theorem meeting_of_abreast {long short : List Stmt} {R : State → State → Prop}
    (h : ∀ s s', R s s' → Abreast R (State.step long s) (State.step short s')) :
    Meeting (State.step long) (State.step short) Eq R := by
  intro s s' hs
  have habreast := h s s' hs
  generalize hlong : State.step long s = transition at habreast
  generalize hshort : State.step short s' = transition' at habreast
  cases habreast with
  | stop result => exact .inl ⟨result, result, .stop hlong, .stop hshort, rfl⟩
  | next hnext => exact .inr ⟨_, _, .single hlong, .single hshort, hnext⟩

section
variable (label : String) (jump : Span) (before behind : List Stmt)

theorem scope_without_goto : scope (before ++ .goto label jump :: behind) = scope (before ++ behind) := by
  simp only [scope, List.foldl_append, List.foldl_cons, widen]

/-- Behind every label the same is left, but for the jump. -/
theorem after?_without_goto (name : String) :
    Option.Rel (Shortened label jump behind) (after? name (before ++ .goto label jump :: behind))
      (after? name (before ++ behind)) := by
  induction before with
  | nil =>
      show Option.Rel _ (after? name behind) (after? name behind)
      cases after? name behind with
      | none => exact .none
      | some rest => exact .some (.passed rest)
  | cons stmt before ih =>
      cases stmt with
      | label other span =>
          rw [List.cons_append, List.cons_append, after?, after?]
          split
          · exact .some (.ahead before)
          · exact ih
      | _ => exact ih

end

section
variable {label : String} {jump : Span} {behind : List Stmt} {s s' : State}

theorem Beside.evaluate (h : Beside label jump behind s s') (value : Expr)
    {use use' : Word → Transition State Result}
    (huse : ∀ v, Abreast (Beside label jump behind) (use v) (use' v)) :
    Abreast (Beside label jump behind) (s.evaluate value use) (s'.evaluate value use') := by
  obtain ⟨rest, hrest, rfl⟩ := h
  rw [State.evaluate, State.evaluate]
  cases value.eval? s.store with
  | none => exact .stop _
  | some v => exact huse v

theorem Beside.assign (h : Beside label jump behind s s') (name : String) (value : Word) :
    Beside label jump behind (s.assign name value) (s'.assign name value) := by
  obtain ⟨rest, hrest, rfl⟩ := h
  exact ⟨rest, hrest, rfl⟩

theorem Beside.print (h : Beside label jump behind s s') (value : Word) (ty : Option Ty) :
    Abreast (Beside label jump behind) (s.print value ty) (s'.print value ty) := by
  obtain ⟨rest, hrest, rfl⟩ := h
  cases ty with
  | none => exact .stop _
  | some ty => exact .next ⟨rest, hrest, rfl⟩

theorem Beside.goto (h : Beside label jump behind s s') (before : List Stmt) (name : String) :
    Abreast (Beside label jump behind) (s.goto (before ++ .goto label jump :: behind) name)
      (s'.goto (before ++ behind) name) := by
  obtain ⟨rest, -, rfl⟩ := h
  rw [State.goto, State.goto]
  have hafter := after?_without_goto label jump before behind name
  generalize after? name (before ++ .goto label jump :: behind) = long at hafter
  generalize after? name (before ++ behind) = short at hafter
  cases hafter with
  | none => exact .stop _
  | some hrest => exact .next ⟨_, hrest, rfl⟩

/-- The same statement is carried out alike in both programs. -/
theorem Beside.perform (h : Beside label jump behind s s') (before : List Stmt) (stmt : Stmt) :
    Abreast (Beside label jump behind) (State.perform (before ++ .goto label jump :: behind) s stmt)
      (State.perform (before ++ behind) s' stmt) := by
  cases stmt with
  | label name span => exact .next h
  | declare name value span => exact h.evaluate value fun v => .next (h.assign name v)
  | assign name value span => exact h.evaluate value fun v => .next (h.assign name v)
  | print value span =>
      rw [State.perform, State.perform, scope_without_goto]
      exact h.evaluate value fun v => h.print v _
  | goto name span => exact h.goto before name
  | ifGoto cond name span =>
      refine h.evaluate cond fun v => ?_
      split
      · exact h.goto before name
      · exact .next h
  | exit value span =>
      refine h.evaluate value fun v => ?_
      obtain ⟨rest, -, rfl⟩ := h
      exact .stop _

theorem after?_of_notMem {before rest : List Stmt} (h : label ∉ labels before) :
    after? label (before ++ rest) = after? label rest := by
  induction before with
  | nil => rfl
  | cons stmt before ih =>
      rw [← List.singleton_append, labels_append, List.mem_append, not_or] at h
      cases stmt with
      | label name span =>
          have hname : name ≠ label := fun heq => h.1 (heq ▸ List.mem_cons_self)
          rw [List.cons_append, after?, if_neg hname]
          exact ih h.2
      | _ => exact ih h.2

/-- Only at the jump do the two programs carry out different statements: the one goes to the label and the
other one passes it. -/
theorem Beside.step {mark : Span} {before : List Stmt} (hnew : label ∉ labels before)
    (h : Beside label jump (.label label mark :: behind) s s') :
    Abreast (Beside label jump (.label label mark :: behind))
      (State.step (before ++ .goto label jump :: .label label mark :: behind) s)
      (State.step (before ++ .label label mark :: behind) s') := by
  obtain ⟨rest, store, out, err⟩ := s
  obtain ⟨rest', hrest, rfl⟩ := h
  cases hrest with
  | passed =>
      cases rest with
      | nil => exact .stop _
      | cons stmt rest => exact Beside.perform ⟨rest, .passed rest, rfl⟩ before stmt
  | ahead front =>
      cases front with
      | cons stmt front => exact Beside.perform ⟨_, .ahead front, rfl⟩ before stmt
      | nil =>
          have hafter : after? label (before ++ .goto label jump :: .label label mark :: behind) = some behind := by
            rw [after?_of_notMem hnew]
            exact if_pos rfl
          show Abreast _ (State.goto _ _ label) _
          rw [State.goto, hafter]
          exact .next ⟨behind, .passed behind, rfl⟩

end

theorem ends_without_goto {label : String} {before : List Stmt} (hnew : label ∉ labels before)
    (jump mark : Span) (behind : List Stmt) (out err : Bytes) (result : Result) :
    Ends (State.step (before ++ .goto label jump :: .label label mark :: behind))
        { rest := before ++ .goto label jump :: .label label mark :: behind, out, err } result ↔
      Ends (State.step (before ++ .label label mark :: behind))
        { rest := before ++ .label label mark :: behind, out, err } result := by
  have hmeeting := meeting_of_abreast fun _ _ (h : Beside label jump (.label label mark :: behind) _ _) =>
    h.step hnew
  have hstart : Beside label jump (.label label mark :: behind)
      { rest := before ++ .goto label jump :: .label label mark :: behind, out, err }
      { rest := before ++ .label label mark :: behind, out, err } := ⟨_, .ahead before, rfl⟩
  constructor
  · intro hends
    obtain ⟨_, hends', rfl⟩ := hmeeting.ends hstart hends
    exact hends'
  · intro hends
    obtain ⟨_, hends', rfl⟩ := hmeeting.swap.ends hstart hends
    exact hends'

end Source

/-- A program with a jump to the label right behind it is lowered only if it is without the jump, too, and at
every level of optimization both write the same and end with the same status, or both run forever. -/
theorem Ast.goto_next_label_transparent {config : Config} {host : Host} {c : Compilation}
    (hstart : Compilation.start config host = .ok c) (before behind : List Stmt) (label : String)
    (jump mark stop : Span) {program : Program} {session : Session}
    (hlower : (⟨before ++ .goto label jump :: .label label mark :: behind, stop⟩ : Ast).lower c.session =
      (.ok program, session))
    (hsize : program.ops.size < 4294967296) :
    ∃ program' session',
      (⟨before ++ .label label mark :: behind, stop⟩ : Ast).lower c.session = (.ok program', session') ∧
      ∀ (level : OptLevel) (out err : Sink), out.Reliable → err.Reliable →
        (∀ ending, (program.optimize level).1.EndsWith out err ending ↔
          (program'.optimize level).1.EndsWith out err ending) ∧
        ((program.optimize level).1.RunsForever out err ↔ (program'.optimize level).1.RunsForever out err) := by
  have hfresh := Compilation.fresh_of_start hstart
  have haccepted : ∀ ast : Ast, size ast.stmts < 4294967296 →
      ((∃ program session, ast.lower c.session = (.ok program, session)) ↔
        WellFormed c.session.buffer.limit c.session.labels.capacity ast.stmts) := by
    intro ast hbound
    rw [Ast.exists_lower_iff, Lowering.returns_program hfresh hbound, Lowering.wellFormed_iff]
  obtain ⟨hops, -⟩ := Ast.lower_size hfresh hlower
  have hwell := (haccepted _ (by omega)).mp ⟨program, session, hlower⟩
  have hshorter : size (before ++ .label label mark :: behind) < 4294967296 := by
    simp only [size_append, size] at hops ⊢
    omega
  obtain ⟨program', session', hlower'⟩ := (haccepted ⟨_, stop⟩ hshorter).mpr hwell.without_goto
  refine ⟨program', session', hlower', fun level out err hout herr => ?_⟩
  obtain ⟨hops', -⟩ := Ast.lower_size hfresh hlower'
  have hsize' : program'.ops.size < 4294967296 := by
    simp only [size_append, size] at hops hops'
    omega
  obtain ⟨_, hl⟩ := Ast.lower_spec hfresh hlower hsize
  obtain ⟨_, hl'⟩ := Ast.lower_spec hfresh hlower' hsize'
  have hends : ∀ ending, (program.optimize level).1.EndsWith out err ending ↔
      (program'.optimize level).1.EndsWith out err ending := by
    intro ending
    rw [hl.endsWith_optimize hsize level hout herr, hl'.endsWith_optimize hsize' level hout herr]
    simp only [ends_without_goto hwell.notMem_labels]
  refine ⟨hends, ?_⟩
  simp only [Program.runsForever_iff_not_endsWith, hends]

/-- The countdown with a jump into its loop; every label moves by one address. -/
theorem Ast.goto_next_label_transparent_countdown :
    let before := countdown.stmts.take 1
    let behind := countdown.stmts.drop 2
    ∃ c program session program' session', Compilation.start { input := "countdown.gt" } Host.bare = .ok c ∧
      (⟨before ++ .goto "again" ⟨1, 12⟩ :: .label "again" ⟨2, 1⟩ :: behind, countdown.stop⟩ : Ast).lower c.session =
        (.ok program, session) ∧ program.ops.size = 18 ∧
      (⟨before ++ .label "again" ⟨2, 1⟩ :: behind, countdown.stop⟩ : Ast).lower c.session =
        (.ok program', session') ∧
      ∀ level, (∀ ending, (program.optimize level).1.EndsWith {} {} ending ↔
          (program'.optimize level).1.EndsWith {} {} ending) ∧
        ((program.optimize level).1.RunsForever {} {} ↔ (program'.optimize level).1.RunsForever {} {}) := by
  intro before behind
  obtain ⟨c, hstart⟩ : ∃ c, Compilation.start { input := "countdown.gt" } Host.bare = .ok c := ⟨_, rfl⟩
  have hlower : ∃ program session,
      (⟨before ++ .goto "again" ⟨1, 12⟩ :: .label "again" ⟨2, 1⟩ :: behind, countdown.stop⟩ : Ast).lower c.session =
        (.ok program, session) ∧ program.ops.size = 18 := by
    have hsize : ((⟨before ++ .goto "again" ⟨1, 12⟩ :: .label "again" ⟨2, 1⟩ :: behind, countdown.stop⟩ : Ast).lower
        (.start none 4096)).1.map (fun program => program.ops.size) = .ok 18 := by decide +kernel
    rw [Compilation.session_of_start hstart]
    generalize Ast.lower _ _ = lowered at hsize ⊢
    obtain ⟨outcome, session⟩ := lowered
    cases outcome with
    | error e => cases hsize
    | ok program => exact ⟨program, session, rfl, Except.ok.inj hsize⟩
  obtain ⟨program, session, hlower, hsize⟩ := hlower
  obtain ⟨program', session', hlower', hsame⟩ := goto_next_label_transparent hstart before behind "again" ⟨1, 12⟩
    ⟨2, 1⟩ countdown.stop hlower (by omega)
  exact ⟨c, program, session, program', session', hstart, hlower, hsize, hlower',
    fun level => hsame level {} {} ⟨rfl, rfl⟩ ⟨rfl, rfl⟩⟩

end GotoLang
