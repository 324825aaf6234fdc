import GotoLang.Proofs.Lowering.Visit

/-!
# Well-formed programs

The rules that a program has to obey, each on its own: every variable is declared once and before its
first use, expressions and statements have types, labels are distinct and defined, few enough transfers
stand before their labels, and there are few enough operations.

The visit of the statements asks these questions one statement at a time, with what stands before it. A
program obeys the rules for names and types just when each of its statements is admitted behind the ones
before it.
-/
namespace GotoLang
open Source

/-- The variables that an expression reads. -/
def Expr.names : Expr → List String
  | int _ _ | bool _ _ => []
  | var name _ => [name]
  | unary _ operand _ => operand.names
  | binary _ lhs rhs _ => lhs.names ++ rhs.names

/-- The variables that have to be declared before a statement. -/
def Stmt.uses : Stmt → List String
  | label _ _ | goto _ _ => []
  | assign name value _ => name :: value.names
  | declare _ value _ | print value _ | ifGoto value _ _ | exit value _ => value.names

namespace Source

/-- The variable that a statement declares. -/
def declaration? : Stmt → Option String
  | .declare name _ _ => some name
  | _ => none

def declarations (stmts : List Stmt) : List String :=
  stmts.filterMap declaration?

def labels (stmts : List Stmt) : List String :=
  stmts.filterMap definition?

/-- The number of transfers that stand before the definition of their label. -/
def forward : List Stmt → Nat
  | [] => 0
  | stmt :: rest => ((destination? stmt).any fun label => label ∈ labels rest).toNat + forward rest

/-- The type rules for expressions, given the types of the variables. -/
inductive HasType (types : String → Ty) : Expr → Ty → Prop where
  | int {value : Word} {span : Span} : HasType types (.int value span) .int
  | bool {value : Bool} {span : Span} : HasType types (.bool value span) .bool
  | var {name : String} {span : Span} : HasType types (.var name span) (types name)
  | neg {operand : Expr} {span : Span} (h : HasType types operand .int) :
      HasType types (.unary .neg operand span) .int
  | not {operand : Expr} {span : Span} (h : HasType types operand .bool) :
      HasType types (.unary .not operand span) .bool
  | arith {op : Arith} {lhs rhs : Expr} {span : Span} (hl : HasType types lhs .int)
      (hr : HasType types rhs .int) : HasType types (.binary (.arith op) lhs rhs span) .int
  | equality {cond : Cond} {lhs rhs : Expr} {span : Span} {ty : Ty} (hcond : cond = .eq ∨ cond = .ne)
      (hl : HasType types lhs ty) (hr : HasType types rhs ty) :
      HasType types (.binary (.cmp cond) lhs rhs span) .bool
  | order {cond : Cond} {lhs rhs : Expr} {span : Span} (hcond : cond ≠ .eq ∧ cond ≠ .ne)
      (hl : HasType types lhs .int) (hr : HasType types rhs .int) :
      HasType types (.binary (.cmp cond) lhs rhs span) .bool
  | logic {op : Logic} {lhs rhs : Expr} {span : Span} (hl : HasType types lhs .bool)
      (hr : HasType types rhs .bool) : HasType types (.binary (.logic op) lhs rhs span) .bool

/-- The type rules for statements; a variable has the type of its initial value. -/
def Obeys (types : String → Ty) : Stmt → Prop
  | .label _ _ | .goto _ _ => True
  | .declare name value _ | .assign name value _ => HasType types value (types name)
  | .print value _ => ∃ ty, HasType types value ty
  | .ifGoto cond _ _ => HasType types cond .bool
  | .exit value _ => HasType types value .int

/-- The rules for a program that may have so many operations and so many transfers ahead of their
labels. -/
structure WellFormed (limit capacity : Nat) (stmts : List Stmt) : Prop where
  visible : ∀ before stmt behind, stmts = before ++ stmt :: behind →
    ∀ name ∈ stmt.uses, name ∈ declarations before
  declared : (declarations stmts).Nodup
  typed : ∃ types, ∀ stmt ∈ stmts, Obeys types stmt
  labelled : (labels stmts).Nodup
  defined : ∀ stmt ∈ stmts, ∀ label ∈ destination? stmt, label ∈ labels stmts
  forward : forward stmts ≤ capacity
  /-- The epilogue has two operations. -/
  size : size stmts + 2 ≤ limit

/-- What holds of every statement together with those before it. -/
def Each (P : List Stmt → Stmt → Prop) (done : List Stmt) : List Stmt → Prop
  | [] => True
  | stmt :: rest => P done stmt ∧ Each P (done ++ [stmt]) rest

theorem each_iff {P : List Stmt → Stmt → Prop} {done rest : List Stmt} :
    Each P done rest ↔ ∀ before stmt behind, rest = before ++ stmt :: behind → P (done ++ before) stmt := by
  induction rest generalizing done with
  | nil => simp [Each]
  | cons stmt rest ih =>
      rw [Each, ih]
      constructor
      · intro h before stmt' behind hsplit
        cases before with
        | nil =>
            obtain ⟨rfl, rfl⟩ := List.cons.inj hsplit
            simpa using h.1
        | cons first before =>
            obtain ⟨rfl, rfl⟩ := List.cons.inj hsplit
            simpa using h.2 before stmt' behind rfl
      · intro h
        constructor
        · simpa using h [] stmt rest rfl
        · intro before stmt' behind hsplit
          simpa using h (stmt :: before) stmt' behind (by rw [hsplit]; rfl)

theorem each_and {P Q : List Stmt → Stmt → Prop} {done rest : List Stmt} :
    Each (fun done stmt => P done stmt ∧ Q done stmt) done rest ↔ Each P done rest ∧ Each Q done rest := by
  induction rest generalizing done with
  | nil => simp [Each]
  | cons stmt rest ih =>
      simp only [Each, ih]
      exact and_and_and_comm

theorem each_of_forall {P : Stmt → Prop} {done rest : List Stmt} :
    Each (fun _ stmt => P stmt) done rest ↔ ∀ stmt ∈ rest, P stmt := by
  induction rest generalizing done with
  | nil => simp [Each]
  | cons stmt rest ih => simp [Each, ih]

theorem nodup_snoc {f : Stmt → Option String} {done : List Stmt} {stmt : Stmt} :
    ((done ++ [stmt]).filterMap f).Nodup ↔
      (done.filterMap f).Nodup ∧ ∀ name ∈ f stmt, name ∉ done.filterMap f := by
  rw [List.filterMap_append]
  cases hf : f stmt with
  | none => simp [hf]
  | some name =>
      simp only [List.filterMap_cons, hf, List.filterMap_nil, List.nodup_append, List.nodup_cons,
        List.not_mem_nil, not_false_eq_true, List.nodup_nil, and_self, true_and, List.mem_singleton,
        forall_eq, Option.mem_some_iff, forall_eq']
      constructor
      · intro h
        exact ⟨h.1, fun hmem => h.2 name hmem rfl⟩
      · intro h
        exact ⟨h.1, fun other hother he => h.2 (he ▸ hother)⟩

/-- Names are distinct if each of them is new where it is introduced. -/
theorem each_new_iff {f : Stmt → Option String} {done rest : List Stmt} (h : (done.filterMap f).Nodup) :
    Each (fun done stmt => ∀ name ∈ f stmt, name ∉ done.filterMap f) done rest ↔
      ((done ++ rest).filterMap f).Nodup := by
  induction rest generalizing done with
  | nil => simpa [Each] using h
  | cons stmt rest ih =>
      rw [Each, List.append_cons done stmt rest]
      constructor
      · intro hnew
        exact (ih (nodup_snoc.mpr ⟨h, hnew.1⟩)).mp hnew.2
      · intro hall
        have hfront : ((done ++ [stmt]).filterMap f).Nodup := by
          rw [List.filterMap_append, List.nodup_append] at hall
          exact hall.1
        exact ⟨(nodup_snoc.mp hfront).2, (ih hfront).mpr hall⟩

/-- The variables with these names, and no others, are declared with these types. -/
def typing (types : String → Ty) (names : List String) : Scope :=
  fun name => if name ∈ names then some (types name) else none

theorem typing_eq_some {types : String → Ty} {names : List String} {name : String} {ty : Ty} :
    typing types names name = some ty ↔ types name = ty ∧ name ∈ names := by
  unfold typing
  split <;> simp_all

theorem typing_eq_none {types : String → Ty} {names : List String} {name : String} :
    typing types names name = none ↔ name ∉ names := by
  unfold typing
  split <;> simp_all

section Rules

variable {types : String → Ty}

/-- The rule for an operator, whatever it is. -/
theorem hasType_binary {op : BinaryOp} {lhs rhs : Expr} {span : Span} {ty : Ty} :
    HasType types (.binary op lhs rhs span) ty ↔
      ∃ a b, HasType types lhs a ∧ HasType types rhs b ∧ accepts a b op ∧ op.resultTy = ty := by
  constructor
  · intro h
    cases h with
    | arith hl hr => exact ⟨.int, .int, hl, hr, by simp [accepts], rfl⟩
    | equality hcond hl hr =>
        refine ⟨_, _, hl, hr, ?_, rfl⟩
        rcases hcond with rfl | rfl <;> simp [accepts]
    | @order cond _ _ _ hcond hl hr =>
        refine ⟨.int, .int, hl, hr, ?_, rfl⟩
        cases cond <;> simp [accepts]
    | logic hl hr => exact ⟨.bool, .bool, hl, hr, by simp [accepts], rfl⟩
  · rintro ⟨a, b, hl, hr, haccepts, rfl⟩
    cases op with
    | arith op =>
        simp [accepts] at haccepts
        rw [haccepts.1] at hl
        rw [haccepts.2] at hr
        exact .arith hl hr
    | cmp cond =>
        cases cond with
        | eq =>
            simp [accepts] at haccepts
            exact .equality (.inl rfl) hl (haccepts ▸ hr)
        | ne =>
            simp [accepts] at haccepts
            exact .equality (.inr rfl) hl (haccepts ▸ hr)
        | lt | le | gt | ge =>
            simp [accepts] at haccepts
            rw [haccepts.1] at hl
            rw [haccepts.2] at hr
            exact .order (by decide) hl hr
    | logic op =>
        simp [accepts] at haccepts
        rw [haccepts.1] at hl
        rw [haccepts.2] at hr
        exact .logic hl hr

theorem hasType_unary {op : UnaryOp} {operand : Expr} {span : Span} {ty : Ty} :
    HasType types (.unary op operand span) ty ↔ HasType types operand op.ty ∧ op.ty = ty := by
  constructor
  · intro h
    cases h with
    | neg h => exact ⟨h, rfl⟩
    | not h => exact ⟨h, rfl⟩
  · rintro ⟨h, rfl⟩
    cases op with
    | neg => exact .neg h
    | not => exact .not h

/-- The static type of an expression is the one that the rules give. -/
theorem ty?_typing {names : List String} {e : Expr} {ty : Ty} :
    e.ty? (typing types names) = some ty ↔ HasType types e ty ∧ ∀ name ∈ e.names, name ∈ names := by
  induction e generalizing ty with
  | int value span =>
      simp only [Expr.ty?, Expr.names, Option.some.injEq, List.not_mem_nil, false_implies, implies_true,
        and_true]
      constructor
      · rintro rfl
        exact .int
      · rintro ⟨⟩
        rfl
  | bool value span =>
      simp only [Expr.ty?, Expr.names, Option.some.injEq, List.not_mem_nil, false_implies, implies_true,
        and_true]
      constructor
      · rintro rfl
        exact .bool
      · rintro ⟨⟩
        rfl
  | var name span =>
      rw [Expr.ty?, typing_eq_some]
      simp only [Expr.names, List.mem_singleton, forall_eq]
      apply and_congr_left'
      constructor
      · rintro rfl
        exact .var
      · rintro ⟨⟩
        rfl
  | unary op operand span ih =>
      rw [Expr.ty?, hasType_unary, Option.ite_none_right_eq_some, ih, Option.some.injEq, Expr.names]
      exact and_right_comm
  | binary op lhs rhs span ihl ihr =>
      simp only [Expr.ty?, Option.bind_eq_some_iff, ihl, ihr, Option.ite_none_right_eq_some,
        Option.some.injEq, hasType_binary, Expr.names, List.forall_mem_append]
      constructor
      · rintro ⟨a, ⟨hl, hlnames⟩, b, ⟨hr, hrnames⟩, haccepts, hty⟩
        exact ⟨⟨a, b, hl, hr, haccepts, hty⟩, hlnames, hrnames⟩
      · rintro ⟨⟨a, b, hl, hr, haccepts, hty⟩, hlnames, hrnames⟩
        exact ⟨a, ⟨hl, hlnames⟩, b, ⟨hr, hrnames⟩, haccepts, hty⟩

end Rules

/-- The names and types of a statement are in order behind some others. -/
def Admits (done : List Stmt) : Stmt → Prop
  | .label name _ => name ∉ labels done
  | .declare name value _ => scope done name = none ∧ ∃ ty, value.ty? (scope done) = some ty
  | .assign name value _ => ∃ ty, scope done name = some ty ∧ value.ty? (scope done) = some ty
  | .print value _ => ∃ ty, value.ty? (scope done) = some ty
  | .goto _ _ => True
  | .ifGoto cond _ _ => cond.ty? (scope done) = some .bool
  | .exit value _ => value.ty? (scope done) = some .int

/-- The rules for names and types, as far as they concern one statement behind some others. -/
def Rules (types : String → Ty) (done : List Stmt) (stmt : Stmt) : Prop :=
  (Obeys types stmt ∧ ∀ name ∈ stmt.uses, name ∈ declarations done) ∧
    (∀ name ∈ declaration? stmt, name ∉ declarations done) ∧
    ∀ name ∈ definition? stmt, name ∉ labels done

/-- The variables in scope are those that were declared. -/
def Known (done : List Stmt) : Prop :=
  ∃ types, scope done = typing types (declarations done)

section Steps

variable {types : String → Ty} {done rest : List Stmt} {stmt : Stmt}

theorem declarations_snoc : declarations (done ++ [stmt]) = declarations done ++ (declaration? stmt).toList := by
  rw [declarations, List.filterMap_append]
  cases h : declaration? stmt <;> simp [h, declarations]

theorem scope_of_not_declaration (h : declaration? stmt = none) :
    scope (done ++ [stmt]) = scope done ∧ declarations (done ++ [stmt]) = declarations done := by
  rw [scope_append, declarations_snoc, h]
  constructor
  · cases stmt with
    | declare name value span => cases h
    | _ => rfl
  · simp

/-- A declaration gives its variable the type of the initial value. -/
theorem scope_declare {name : String} {value : Expr} {span : Span} (hnone : scope done name = none)
    (hfresh : name ∉ declarations done) :
    scope (done ++ [.declare name value span]) =
        typing types (declarations (done ++ [.declare name value span])) ↔
      scope done = typing types (declarations done) ∧ value.ty? (scope done) = some (types name) := by
  have hnew : ∀ other, typing types (declarations (done ++ [.declare name value span])) other =
      if other = name then some (types name) else typing types (declarations done) other := by
    intro other
    rw [declarations_snoc]
    by_cases h : other = name <;> simp [typing, declaration?, h]
  rw [scope_append]
  constructor
  · intro h
    have hat := fun other => (congrFun h other).trans (hnew other)
    simp only [widen] at hat
    constructor
    · funext other
      by_cases hother : other = name
      · rw [hother, hnone, eq_comm, typing_eq_none]
        exact hfresh
      · simpa [hother] using hat other
    · simpa using hat name
  · intro h
    funext other
    rw [hnew, widen, h.2, h.1]

theorem admits_of_scope (hscope : scope done = typing types (declarations done))
    (h : declaration? stmt = none) : Admits done stmt ↔ Rules types done stmt := by
  cases stmt with
  | declare name value span => cases h
  | label name span => simp [Admits, Rules, Obeys, Stmt.uses, declaration?, definition?]
  | assign name value span =>
      simp [Admits, Rules, hscope, typing_eq_some, ty?_typing, Obeys, Stmt.uses, declaration?,
        definition?, and_assoc]
      exact and_left_comm
  | print value span =>
      simp [Admits, Rules, hscope, ty?_typing, Obeys, Stmt.uses, declaration?, definition?]
  | goto label span => simp [Admits, Rules, Obeys, Stmt.uses, declaration?, definition?]
  | ifGoto cond label span =>
      simp [Admits, Rules, hscope, ty?_typing, Obeys, Stmt.uses, declaration?, definition?]
  | exit value span =>
      simp [Admits, Rules, hscope, ty?_typing, Obeys, Stmt.uses, declaration?, definition?]

/-- A statement is admitted, and leaves the declared types in scope, just when the rules hold for these
types. -/
theorem admits_iff (hknown : Known done) :
    Admits done stmt ∧ scope (done ++ [stmt]) = typing types (declarations (done ++ [stmt])) ↔
      scope done = typing types (declarations done) ∧ Rules types done stmt := by
  cases stmt with
  | declare name value span =>
      have hnone : scope done name = none ↔ name ∉ declarations done := by
        obtain ⟨types', hscope⟩ := hknown
        rw [hscope, typing_eq_none]
      simp only [Admits, Rules, Obeys, Stmt.uses, declaration?, definition?, Option.mem_some_iff,
        forall_eq', hnone]
      constructor
      · rintro ⟨⟨hfresh, -⟩, hafter⟩
        obtain ⟨hscope, hvalue⟩ := (scope_declare (hnone.mpr hfresh) hfresh).mp hafter
        rw [hscope, ty?_typing] at hvalue
        exact ⟨hscope, hvalue, hfresh, by simp⟩
      · rintro ⟨hscope, hvalue, hfresh, -⟩
        rw [← ty?_typing, ← hscope] at hvalue
        exact ⟨⟨hfresh, _, hvalue⟩, (scope_declare (hnone.mpr hfresh) hfresh).mpr ⟨hscope, hvalue⟩⟩
  | _ =>
      rw [(scope_of_not_declaration rfl).1, (scope_of_not_declaration rfl).2, and_comm]
      exact and_congr_right fun hscope => admits_of_scope hscope rfl

theorem Known.snoc (hknown : Known done) (h : Admits done stmt) : Known (done ++ [stmt]) := by
  obtain ⟨types, hscope⟩ := hknown
  cases stmt with
  | declare name value span =>
      obtain ⟨hnone, ty, hty⟩ := h
      have hfresh : name ∉ declarations done := by rwa [hscope, typing_eq_none] at hnone
      refine ⟨fun other => if other = name then ty else types other, ?_⟩
      rw [scope_declare hnone hfresh, if_pos rfl]
      refine ⟨?_, hty⟩
      rw [hscope]
      funext other
      by_cases h : other ∈ declarations done
      · have hother : other ≠ name := fun he => hfresh (he ▸ h)
        simp [typing, h, hother]
      · simp [typing, h]
  | _ => exact ⟨types, by rw [(scope_of_not_declaration rfl).1, (scope_of_not_declaration rfl).2, hscope]⟩

/-- The statements are admitted one behind the other just when the rules hold for some types. -/
theorem each_admits_iff (hknown : Known done) :
    Each Admits done rest ↔
      ∃ types, scope done = typing types (declarations done) ∧ Each (Rules types) done rest := by
  induction rest generalizing done with
  | nil => simpa [Each, Known] using hknown
  | cons stmt rest ih =>
      simp only [Each]
      constructor
      · rintro ⟨hstmt, hrest⟩
        obtain ⟨types, hafter, hrules⟩ := (ih (hknown.snoc hstmt)).mp hrest
        obtain ⟨hscope, hone⟩ := (admits_iff hknown).mp ⟨hstmt, hafter⟩
        exact ⟨types, hscope, hone, hrules⟩
      · rintro ⟨types, hscope, hone, hrules⟩
        obtain ⟨hstmt, hafter⟩ := (admits_iff hknown).mpr ⟨hscope, hone⟩
        exact ⟨hstmt, (ih ⟨types, hafter⟩).mpr ⟨types, hafter, hrules⟩⟩

end Steps

/-- All statements are admitted just when the program obeys the rules for names and types. -/
theorem each_admits_nil {stmts : List Stmt} :
    Each Admits [] stmts ↔
      (∀ before stmt behind, stmts = before ++ stmt :: behind →
        ∀ name ∈ stmt.uses, name ∈ declarations before) ∧
      (declarations stmts).Nodup ∧ (∃ types, ∀ stmt ∈ stmts, Obeys types stmt) ∧ (labels stmts).Nodup := by
  have hempty : ∀ types, scope [] = typing types (declarations []) := by
    intro types
    funext name
    simp [scope, typing, declarations]
  have hrules : ∀ types, Each (Rules types) [] stmts ↔ ((∀ stmt ∈ stmts, Obeys types stmt) ∧
      ∀ before stmt behind, stmts = before ++ stmt :: behind →
        ∀ name ∈ stmt.uses, name ∈ declarations before) ∧
      (declarations stmts).Nodup ∧ (labels stmts).Nodup := by
    intro types
    apply each_and.trans
    apply and_congr
    · exact each_and.trans (and_congr each_of_forall each_iff)
    · exact each_and.trans (and_congr (each_new_iff .nil) (each_new_iff .nil))
  simp only [each_admits_iff ⟨_, hempty fun _ => .int⟩, hrules]
  constructor
  · rintro ⟨types, -, ⟨htyped, hvisible⟩, hdeclared, hlabelled⟩
    exact ⟨hvisible, hdeclared, ⟨types, htyped⟩, hlabelled⟩
  · rintro ⟨hvisible, hdeclared, ⟨types, htyped⟩, hlabelled⟩
    exact ⟨types, hempty types, ⟨htyped, hvisible⟩, hdeclared, hlabelled⟩

/-- Whether the transfer of a statement has to wait for its label, counted as a number. -/
def waits (done : List Stmt) (stmt : Stmt) : Nat :=
  ((destination? stmt).any fun label => label ∉ labels done).toNat

/-- The number of transfers that wait when they are visited. -/
def awaiting (done : List Stmt) : List Stmt → Nat
  | [] => 0
  | stmt :: rest => waits done stmt + awaiting (done ++ [stmt]) rest

theorem awaiting_append {done stmts more : List Stmt} :
    awaiting done (stmts ++ more) = awaiting done stmts + awaiting (done ++ stmts) more := by
  induction stmts generalizing done with
  | nil => simp [awaiting]
  | cons stmt stmts ih => simp [awaiting, ih, Nat.add_assoc]

/-- A transfer is no label. -/
theorem definition?_of_destination? {stmt : Stmt} {label : String} (h : destination? stmt = some label) :
    definition? stmt = none := by
  cases stmt with
  | label name span => cases h
  | _ => rfl

/-- If labels are distinct and defined, those transfers wait that stand before their label. -/
theorem awaiting_eq_forward {done rest : List Stmt} (hlabels : (labels (done ++ rest)).Nodup)
    (hdefined : ∀ stmt ∈ rest, ∀ label ∈ destination? stmt, label ∈ labels (done ++ rest)) :
    awaiting done rest = forward rest := by
  induction rest generalizing done with
  | nil => rfl
  | cons stmt rest ih =>
      rw [List.append_cons] at hlabels hdefined
      have hrest := ih hlabels fun stmt' hstmt' => hdefined stmt' (.tail _ hstmt')
      have hone := hdefined stmt List.mem_cons_self
      rw [awaiting, forward, hrest, waits]
      congr 2
      cases hdest : destination? stmt with
      | none => rfl
      | some label =>
          -- the label stands on one side of the transfer only
          have hplain : labels [stmt] = [] := by simp [labels, definition?_of_destination? hdest]
          have hsplit : labels (done ++ [stmt] ++ rest) = labels done ++ labels rest := by
            rw [labels, List.filterMap_append, List.filterMap_append, ← labels, ← labels, ← labels, hplain,
              List.append_nil]
          rw [hsplit, List.nodup_append] at hlabels
          have hlabel := hone label hdest
          rw [hsplit, List.mem_append] at hlabel
          have hside : label ∉ labels done ↔ label ∈ labels rest := by
            constructor
            · exact hlabel.resolve_left
            · intro hbehind hbefore
              exact hlabels.2.2 label hbefore label hbehind rfl
          exact decide_eq_decide.mpr hside

end Source

end GotoLang
