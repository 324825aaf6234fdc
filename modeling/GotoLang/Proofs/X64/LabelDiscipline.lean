import GotoLang.Proofs.X64.Compiled

/-!
# Labels are used as the assembler wants it

The script of a program places every label that was created for the program once and places no other one,
has an instruction right behind each of them, and refers to no label that was not created. The assembler asks
for nothing else, unless code is so large that a branch does not reach where it goes to. A program that passes its
check and whose frame is not too large has a script.

The labels are created before any code is known. Operations call for a routine even if control never gets
to them, a division has a label of its own only if control reaches it, and a transfer that control does not
reach may go anywhere.
-/
namespace GotoLang.X64

namespace Script

/-- The labels that a script places, in order. -/
def placements : Script → List CodeLabel
  | [] => []
  | .place mark :: rest => mark :: placements rest
  | .emit _ :: rest => placements rest

/-- An instruction stands right behind each label. -/
def Spaced (script : Script) : Prop :=
  ∀ before mark after, script = before ++ .place mark :: after → ∃ instr rest, after = .emit instr :: rest

/-- Branches and addresses refer to these labels only. -/
def Refers (known : List CodeLabel) (script : Script) : Prop :=
  ∀ instr, .emit instr ∈ script → ∀ target ∈ instr.target?, target ∈ known

/-- The labels of a script are used as the assembler wants it. -/
structure Disciplined (labels : List CodeLabel) (script : Script) : Prop where
  distinct : labels.Nodup
  placed : (placements script).Perm labels
  spaced : Spaced script
  solid : Solid script
  refers : Refers labels script

section
variable {script script' : Script} {code : Code} {mark : CodeLabel} {instr : Instr CodeLabel}
variable {known : List CodeLabel}

@[simp] theorem placements_append :
    placements (script ++ script') = placements script ++ placements script' := by
  induction script with
  | nil => rfl
  | cons directive script ih => cases directive <;> simp [placements, ih]

@[simp] theorem placements_code : placements (Code.script code) = [] := by
  induction code with
  | nil => rfl
  | cons instr code ih => exact ih

theorem mem_placements : mark ∈ placements script ↔ .place mark ∈ script := by
  induction script with
  | nil => simp [placements]
  | cons directive script ih => cases directive <;> simp [placements, ih]

theorem spaced_nil : Spaced [] := by
  intro before mark after h
  simp at h

theorem spaced_emit : Spaced (.emit instr :: script) ↔ Spaced script := by
  constructor
  · intro h before mark after hsplit
    exact h (.emit instr :: before) mark after (by rw [hsplit]; rfl)
  · intro h before mark after hsplit
    cases before with
    | nil => cases hsplit
    | cons first before => exact h before mark after (List.cons.inj hsplit).2

theorem spaced_place :
    Spaced (.place mark :: script) ↔ (∃ instr rest, script = .emit instr :: rest) ∧ Spaced script := by
  constructor
  · intro h
    refine ⟨h [] mark script rfl, fun before mark' after hsplit => ?_⟩
    exact h (.place mark :: before) mark' after (by rw [hsplit]; rfl)
  · rintro ⟨hnext, h⟩ before mark' after hsplit
    cases before with
    | nil =>
        obtain ⟨-, rfl⟩ := List.cons.inj hsplit
        exact hnext
    | cons first before => exact h before mark' after (List.cons.inj hsplit).2

theorem Spaced.append (h : Spaced script) (h' : Spaced script') : Spaced (script ++ script') := by
  induction script with
  | nil => exact h'
  | cons directive script ih =>
      cases directive with
      | emit instr => exact spaced_emit.mpr (ih (spaced_emit.mp h))
      | place mark =>
          obtain ⟨⟨instr, rest, rfl⟩, h⟩ := spaced_place.mp h
          exact spaced_place.mpr ⟨⟨instr, rest ++ script', rfl⟩, ih h⟩

theorem spaced_code : Spaced (Code.script code) := by
  intro before mark after h
  have hmem : .place mark ∈ Code.script code := by simp [h]
  simp [Code.script] at hmem

theorem spaced_place_code (h : code ≠ []) : Spaced (.place mark :: Code.script code) := by
  cases code with
  | nil => exact absurd rfl h
  | cons instr code => exact spaced_place.mpr ⟨⟨instr, Code.script code, rfl⟩, spaced_code⟩

theorem refers_append : Refers known (script ++ script') ↔ Refers known script ∧ Refers known script' := by
  simp only [Refers, List.mem_append, or_imp, forall_and]

theorem refers_place : Refers known (.place mark :: script) ↔ Refers known script := by
  simp [Refers]

theorem refers_code :
    Refers known (Code.script code) ↔ ∀ instr ∈ code, ∀ target ∈ instr.target?, target ∈ known := by
  simp [Refers, Code.script]

theorem refers_code_append {code' : Code} : Refers known (Code.script (code ++ code')) ↔
    Refers known (Code.script code) ∧ Refers known (Code.script code') := by
  simp only [refers_code, List.forall_mem_append]

theorem Refers.mono {known' : List CodeLabel} (h : Refers known script)
    (hsub : ∀ mark ∈ known, mark ∈ known') : Refers known' script :=
  fun instr hinstr target htarget => hsub target (h instr hinstr target htarget)

end

end Script

section
open Script
variable {script : Script} {labels : List CodeLabel}

/-- An assembler takes all directives if none of their labels was placed before and none comes while
another one waits. -/
theorem Assembler.exists_run (assembler : Assembler CodeLabel) (hspaced : Spaced script)
    (hnodup : (placements script).Nodup) (hnew : ∀ mark ∈ placements script, mark ∉ assembler.placed)
    (hwaiting : assembler.waiting = none ∨ ∃ instr rest, script = .emit instr :: rest) :
    ∃ final, script.foldlM perform assembler = .ok final ∧ final.waiting = none ∧
      final.placed = (placements script).reverse ++ assembler.placed := by
  induction script generalizing assembler with
  | nil =>
      rcases hwaiting with hnone | ⟨instr, rest, hcons⟩
      · exact ⟨assembler, rfl, hnone, rfl⟩
      · cases hcons
  | cons directive script ih =>
      cases directive with
      | emit instr =>
          exact ih (assembler.emit instr) (spaced_emit.mp hspaced) hnodup hnew (.inl rfl)
      | place mark =>
          obtain ⟨hnext, hspaced⟩ := spaced_place.mp hspaced
          obtain ⟨hmark, hnodup⟩ := List.nodup_cons.mp hnodup
          have hnone : assembler.waiting = none := by
            rcases hwaiting with hnone | ⟨instr, rest, hcons⟩
            · exact hnone
            · cases hcons
          let next : Assembler CodeLabel :=
            { assembler with placed := mark :: assembler.placed, waiting := some mark }
          have hplace : assembler.place mark = .ok next := by
            rw [place, if_neg (by simpa using hnew mark List.mem_cons_self), hnone]
            rfl
          have hnew' : ∀ other ∈ placements script, other ∉ next.placed := by
            intro other hother hplaced
            rcases List.mem_cons.mp hplaced with rfl | hold
            · exact hmark hother
            · exact hnew other (List.mem_cons_of_mem _ hother) hold
          obtain ⟨final, hrun, hdone, hplaced⟩ := ih next hspaced hnodup hnew' (.inr hnext)
          refine ⟨final, ?_, hdone, by simp [hplaced, placements, next]⟩
          rw [List.foldlM_cons, perform, hplace]
          exact hrun

theorem forM_eq_ok {ε α : Type} {f : α → Except ε Unit} {xs : List α} (h : ∀ x ∈ xs, f x = .ok ()) :
    xs.forM f = .ok () := by
  induction xs with
  | nil => rfl
  | cons x xs ih =>
      rw [List.forM, h x List.mem_cons_self]
      exact ih fun y hy => h y (List.mem_cons_of_mem _ hy)

theorem CodeGeneration.check_eq_ok (h : Disciplined labels script) {directive : Directive CodeLabel}
    (hmem : directive ∈ script) : check labels directive = .ok () := by
  rw [check]
  split
  · next mark hmark =>
      have hcreated : mark ∈ labels := by
        cases directive with
        | place other =>
            obtain rfl := Option.some.inj hmark
            exact h.placed.mem_iff.mp (mem_placements.mpr hmem)
        | emit instr => exact h.refers instr hmem mark hmark
      rw [if_pos (List.contains_iff_mem.mpr hcreated)]
  · rfl

/-- This is all that the assembler asks for, except that branches have to reach where they go to. -/
theorem CodeGeneration.assemble_of_disciplined (h : Disciplined labels script) :
    ∃ final, script.foldlM Assembler.perform {} = .ok final ∧ final.waiting = none ∧
      assemble labels script =
        if final.code.all Placed.reaches then .ok final.code else .error (.assembly .targetTooFar) := by
  have hcheck := forM_eq_ok fun _ hmem => check_eq_ok h hmem
  obtain ⟨final, hrun, hdone, -⟩ := Assembler.exists_run {} h.spaced
    (h.placed.nodup_iff.mpr h.distinct) (by simp) (.inl rfl)
  refine ⟨final, hrun, hdone, ?_⟩
  simp only [assemble, hcheck, hrun, Assembler.finish, hdone, bind, Except.bind]
  cases final.code.all Placed.reaches <;> rfl

end

namespace CodeGeneration
open Script

/-- The labels that the code of an operation refers to. -/
def uses (addr : Nat) : Op → List CodeLabel
  | .jump target | .jumpIf target => [.op target.toNat]
  | .print ty => [printer ty]
  | .exit => [.leave]
  | .binary op => optional (divides (.binary op)) [.trap, .divide addr]
  | .push _ | .load _ | .store _ | .unary _ | .nop => []

/-- The code of an operation, with its own labels. -/
structure Neat (addr : Nat) (reached : Bool) (op : Op) (code : Script) : Prop where
  placements : placements code = optional (reached && divides op) [.divide addr]
  spaced : Spaced code
  starts : ∃ instr rest, code = .emit instr :: rest
  refers : Refers (optional reached (uses addr op)) code

/-- Instructions that refer to no label. -/
def Quiet (code : Code) : Prop :=
  ∀ instr ∈ code, instr.target? = none

theorem quiet_append {code code' : Code} : Quiet (code ++ code') ↔ Quiet code ∧ Quiet code' := by
  simp only [Quiet, List.mem_append, or_imp, forall_and]

theorem quiet_cons {instr : Instr CodeLabel} {code : Code} :
    Quiet (instr :: code) ↔ instr.target? = none ∧ Quiet code := by
  simp only [Quiet, List.mem_cons, forall_eq_or_imp]

theorem quiet_nil : Quiet [] :=
  fun _ h => absurd h List.not_mem_nil

theorem quiet_onlyIf {cond : Bool} {code : Code} (h : Quiet code) : Quiet (onlyIf cond code) := by
  cases cond
  · exact quiet_nil
  · exact h

theorem quiet_combine (op : BinaryOp) : Quiet (combine op) := by
  rcases op with (_ | _ | _ | _ | _) | _ | (_ | _) <;> simp [combine, Quiet, Instr.target?]

theorem quiet_unary (op : UnaryOp) : Quiet (unary op) := by
  cases op <;> simp [unary, Quiet, Instr.target?]

theorem Quiet.refers {code : Code} (h : Quiet code) (known : List CodeLabel) :
    Refers known (Code.script code) := by
  rw [refers_code]
  intro instr hinstr target htarget
  rw [h instr hinstr] at htarget
  cases htarget

section
variable {addr depth : Nat} {op : Op}

/-- Code without labels. -/
theorem neat_code {reached : Bool} {code : Code} (hne : code ≠ [])
    (hdivides : (reached && divides op) = false)
    (hrefers : Refers (optional reached (uses addr op)) (Code.script code)) :
    Neat addr reached op (Code.script code) := by
  refine ⟨?_, spaced_code, ?_, hrefers⟩
  · rw [placements_code, hdivides]
    rfl
  · cases code with
    | nil => exact absurd rfl hne
    | cons instr code => exact ⟨instr, Code.script code, rfl⟩

theorem neat_quiet {reached : Bool} {code : Code} (hne : code ≠ [])
    (hdivides : (reached && divides op) = false) (h : Quiet code) : Neat addr reached op (Code.script code) :=
  neat_code hne hdivides (h.refers _)

theorem placements_division (remainder : Bool) : placements (division addr remainder) = [.divide addr] := by
  simp [division, placements]

theorem spaced_division (remainder : Bool) : Spaced (division addr remainder) :=
  spaced_code.append (spaced_place_code (by simp))

theorem refers_division (remainder : Bool) : Refers [.trap, .divide addr] (division addr remainder) := by
  rw [division, refers_append, refers_place, refers_code, refers_code]
  cases remainder <;> simp [Instr.target?, onlyIf]

/-- A division between other instructions. -/
theorem neat_division {op : BinaryOp} {remainder : Bool} (hdivides : divides? op = some remainder)
    {front back : Code} (hne : front ≠ []) (hfront : Quiet front) (hback : Quiet back) :
    Neat addr true (.binary op) (Code.script front ++ division addr remainder ++ Code.script back) := by
  have hdivides : divides (.binary op) = true := by simp [divides, hdivides]
  have huses : uses addr (.binary op) = [.trap, .divide addr] := by
    rw [uses, hdivides]
    rfl
  refine ⟨?_, (spaced_code.append (spaced_division remainder)).append spaced_code, ?_, ?_⟩
  · simp [placements_division, hdivides, optional]
  · cases front with
    | nil => exact absurd rfl hne
    | cons instr front => exact ⟨instr, _, rfl⟩
  · rw [huses, refers_append, refers_append]
    exact ⟨⟨hfront.refers _, refers_division remainder⟩, hback.refers _⟩

theorem neat_plain {code : Script} (h : plain addr op = .ok code) : Neat addr true op code := by
  cases op with
  | push value =>
      cases h
      exact neat_quiet (by simp) rfl (by simp [Quiet, Instr.target?])
  | load slot =>
      obtain ⟨offset, -, h⟩ := except_bind_eq_ok.mp h
      cases h
      exact neat_quiet (by simp) rfl (by simp [Quiet, Instr.target?])
  | store slot =>
      obtain ⟨offset, -, h⟩ := except_bind_eq_ok.mp h
      cases h
      exact neat_quiet (by simp) rfl (by simp [Quiet, Instr.target?])
  | unary op =>
      cases h
      exact neat_quiet (by simp) rfl
        (by simp [quiet_append, quiet_cons, quiet_nil, quiet_unary, Instr.target?])
  | binary op =>
      rw [plain] at h
      split at h
      · next remainder hdivides =>
          cases h
          exact neat_division hdivides (by simp) (by simp [Quiet, Instr.target?])
            (by simp [Quiet, Instr.target?])
      · next hdivides =>
          cases h
          exact neat_quiet (by simp) (by simp [divides, hdivides])
            (by simp [quiet_append, quiet_cons, quiet_nil, quiet_combine, Instr.target?])
  | jump target =>
      cases h
      exact neat_code (by simp) rfl (show Refers [_] _ by simp [refers_code, Instr.target?])
  | jumpIf target =>
      cases h
      exact neat_code (by simp) rfl (show Refers [_] _ by simp [refers_code, Instr.target?])
  | print ty =>
      cases h
      exact neat_code (by simp) rfl (show Refers [_] _ by simp [refers_code, Instr.target?])
  | exit =>
      cases h
      exact neat_code (by simp) rfl (show Refers [_] _ by simp [refers_code, Instr.target?])
  | nop =>
      cases h
      exact neat_quiet (by simp) rfl (by simp [Quiet, Instr.target?])

theorem neat_cached {code : Script} (h : cached addr depth op = .ok code) : Neat addr true op code := by
  have hspill : ∀ cond, Quiet (onlyIf cond [.push .rax]) :=
    fun cond => quiet_onlyIf (by simp [Quiet, Instr.target?])
  have hrefill : ∀ cond, Quiet (onlyIf cond [.pop .rax]) :=
    fun cond => quiet_onlyIf (by simp [Quiet, Instr.target?])
  cases op with
  | push value =>
      cases h
      exact neat_quiet (by simp) rfl (by simp [quiet_append, quiet_cons, quiet_nil, hspill, Instr.target?])
  | load slot =>
      obtain ⟨offset, -, h⟩ := except_bind_eq_ok.mp h
      cases h
      exact neat_quiet (by simp) rfl (by simp [quiet_append, quiet_cons, quiet_nil, hspill, Instr.target?])
  | store slot =>
      obtain ⟨offset, -, h⟩ := except_bind_eq_ok.mp h
      cases h
      exact neat_quiet (by simp) rfl (by simp [quiet_cons, hrefill, Instr.target?])
  | unary op =>
      cases h
      exact neat_quiet (by cases op <;> simp [unary]) rfl (quiet_unary op)
  | binary op =>
      rw [cached] at h
      split at h
      · next remainder hdivides =>
          cases h
          rw [← List.append_nil (_ ++ _)]
          exact neat_division hdivides (by simp) (by simp [Quiet, Instr.target?]) quiet_nil
      · next hdivides =>
          cases h
          exact neat_quiet (by simp) (by simp [divides, hdivides])
            (by simp [quiet_cons, quiet_combine, Instr.target?])
  | jump target =>
      cases h
      exact neat_code (by simp) rfl (show Refers [_] _ by simp [refers_code, Instr.target?])
  | jumpIf target =>
      cases h
      refine neat_code (by simp) rfl ?_
      rw [refers_code_append, refers_code_append]
      refine ⟨⟨Quiet.refers (by simp [Quiet, Instr.target?]) _, (hrefill _).refers _⟩, ?_⟩
      show Refers [_] _
      simp [refers_code, Instr.target?]
  | print ty =>
      cases h
      refine neat_code (by simp) rfl ?_
      rw [refers_code_append]
      refine ⟨?_, (hrefill _).refers _⟩
      show Refers [_] _
      simp [refers_code, Instr.target?]
  | exit =>
      cases h
      exact neat_code (by simp) rfl (show Refers [_] _ by simp [refers_code, Instr.target?])
  | nop =>
      cases h
      exact neat_quiet (by simp) rfl (by simp [Quiet, Instr.target?])

/-- Control gets to an operation with a depth or not at all. -/
theorem neat_operation {stackBased : Bool} {depth : Option Nat} {script : Script}
    (h : operation stackBased addr depth op = .ok script) :
    ∃ code, script = .place (.op addr) :: code ∧ Neat addr depth.isSome op code := by
  cases depth with
  | none =>
      cases h
      exact ⟨_, rfl, neat_quiet (by simp) rfl (by simp [Quiet, Instr.target?])⟩
  | some depth =>
      obtain ⟨code, rfl, -, hbody⟩ := operation_eq_ok h
      have hbody := hbody depth rfl
      rw [body] at hbody
      split at hbody
      · exact ⟨code, rfl, neat_plain hbody⟩
      · exact ⟨code, rfl, neat_cached hbody⟩

end

section
variable {stackBased : Bool} {first : Nat} {entries : List (Op × Option Nat)} {scripts : List Script}

/-- Each operation has its label, and each division that control reaches has one more. -/
theorem Scripts.placements (h : Scripts stackBased first entries scripts) :
    (placements scripts.flatten).Perm
      ((List.range' first entries.length).map .op ++ divisions first entries) := by
  induction entries generalizing first scripts with
  | nil =>
      cases h
      exact .refl _
  | cons entry entries ih =>
      obtain ⟨script, rest, hscript, hrest, rfl⟩ := h.cons
      obtain ⟨code, rfl, hneat⟩ := neat_operation hscript
      rw [List.flatten_cons, placements_append, Script.placements, hneat.placements, divisions,
        List.cons_append]
      refine .cons _ (((ih hrest).append_left _).trans ?_)
      exact List.perm_append_comm_assoc _ _ _

theorem Scripts.spaced (h : Scripts stackBased first entries scripts) : Spaced scripts.flatten := by
  induction entries generalizing first scripts with
  | nil =>
      cases h
      exact spaced_nil
  | cons entry entries ih =>
      obtain ⟨script, rest, hscript, hrest, rfl⟩ := h.cons
      obtain ⟨code, rfl, hneat⟩ := neat_operation hscript
      exact (spaced_place.mpr ⟨hneat.starts, hneat.spaced⟩).append (ih hrest)

theorem Scripts.refers (h : Scripts stackBased first entries scripts) {known : List CodeLabel}
    (huses : ∀ i op depth, entries[i]? = some (op, some depth) → ∀ mark ∈ uses (first + i) op, mark ∈ known) :
    Refers known scripts.flatten := by
  induction entries generalizing first scripts with
  | nil =>
      cases h
      exact fun _ hmem => absurd hmem List.not_mem_nil
  | cons entry entries ih =>
      obtain ⟨op, depth⟩ := entry
      obtain ⟨script, rest, hscript, hrest, rfl⟩ := h.cons
      obtain ⟨code, rfl, hneat⟩ := neat_operation hscript
      rw [List.flatten_cons, refers_append, refers_place]
      constructor
      · refine hneat.refers.mono ?_
        cases depth with
        | none => exact fun _ hmem => absurd hmem List.not_mem_nil
        | some depth => exact huses 0 op depth rfl
      · refine ih hrest fun i op depth hentry mark hmark => huses (i + 1) op depth hentry mark ?_
        rwa [show first + 1 + i = first + (i + 1) by omega] at hmark

end

theorem mem_optional {α : Type} {present : Bool} {list : List α} {a : α} :
    a ∈ optional present list ↔ present = true ∧ a ∈ list := by
  cases present <;> simp [optional]

theorem spaced_optional {present : Bool} {script : Script} (h : Spaced script) :
    Spaced (optional present script) := by
  cases present
  · exact spaced_nil
  · exact h

theorem refers_optional {present : Bool} {script : Script} {known : List CodeLabel}
    (h : present = true → Refers known script) : Refers known (optional present script) := by
  cases present
  · exact fun _ hmem => absurd hmem List.not_mem_nil
  · exact h rfl

theorem spaced_datum (mark : CodeLabel) (text : String) : Spaced (Routines.datum mark text) := by
  show Spaced (.place mark :: Code.script [.data (Bytes.ofText text).toList])
  exact spaced_place_code (by simp)

theorem spaced_support (needs : Needs) : Spaced (support needs) := by
  have htrap : Spaced Routines.trap := spaced_place_code (by simp)
  have hprintInt : Spaced Routines.printInt := by
    refine ((Spaced.append ?_ ?_).append ?_).append ?_ <;> exact spaced_place_code (by simp)
  have hprintBool : Spaced Routines.printBool := by
    refine (Spaced.append ?_ ?_).append ?_ <;> exact spaced_place_code (by simp)
  refine (((Spaced.append ?_ ?_).append ?_).append ?_).append ?_
  · exact spaced_optional htrap
  · exact spaced_optional hprintInt
  · exact spaced_optional hprintBool
  · exact spaced_optional (spaced_datum _ _)
  · exact spaced_optional ((spaced_datum _ _).append (spaced_datum _ _))

section
variable {options : CodeOptions} {ops : Array Op} {depths : Flow.Depths}

theorem mem_divisions {first : Nat} {entries : List (Op × Option Nat)} {mark : CodeLabel} :
    mark ∈ divisions first entries ↔
      ∃ i op depth, entries[i]? = some (op, some depth) ∧ divides op = true ∧ mark = .divide (first + i) := by
  induction entries generalizing first with
  | nil => simp [divisions]
  | cons entry entries ih =>
      obtain ⟨op, depth⟩ := entry
      rw [divisions, List.mem_append, mem_optional, ih, Bool.and_eq_true, List.mem_singleton]
      constructor
      · rintro (⟨⟨hsome, hdivides⟩, rfl⟩ | ⟨i, op, depth, hentry, hdivides, rfl⟩)
        · obtain ⟨depth, rfl⟩ := Option.isSome_iff_exists.mp hsome
          exact ⟨0, op, depth, rfl, hdivides, rfl⟩
        · exact ⟨i + 1, op, depth, hentry, hdivides, by rw [Nat.add_assoc, Nat.add_comm 1]⟩
      · rintro ⟨i, op', depth', hentry, hdivides, rfl⟩
        cases i with
        | zero =>
            cases hentry
            exact .inl ⟨⟨rfl, hdivides⟩, rfl⟩
        | succ i => exact .inr ⟨i, op', depth', hentry, hdivides, by rw [Nat.add_assoc, Nat.add_comm 1]⟩

theorem divisions_nodup (first : Nat) (entries : List (Op × Option Nat)) :
    (divisions first entries).Nodup := by
  induction entries generalizing first with
  | nil => exact List.nodup_nil
  | cons entry entries ih =>
      rw [divisions, List.nodup_append]
      refine ⟨?_, ih _, ?_⟩
      · cases entry.2.isSome && divides entry.1 <;> simp [optional]
      · intro mark hmark mark' hmark' heq
        obtain ⟨i, _, _, -, -, rfl⟩ := mem_divisions.mp hmark'
        rw [mem_optional, List.mem_singleton] at hmark
        rw [hmark.2, CodeLabel.divide.injEq] at heq
        omega

theorem named_nodup (entryPoint : Bool) (needs : Needs) : (named entryPoint needs).Nodup := by
  obtain ⟨printInt, printBool, trap⟩ := needs
  revert entryPoint printInt printBool trap
  decide

theorem op_notMem_named {entryPoint : Bool} {needs : Needs} {addr : Nat} :
    .op addr ∉ named entryPoint needs := by
  simp [named, mem_optional]

theorem divide_notMem_named {entryPoint : Bool} {needs : Needs} {addr : Nat} :
    .divide addr ∉ named entryPoint needs := by
  simp [named, mem_optional]

theorem op_notMem_namedLabels {addr : Nat} : .op addr ∉ namedLabels options ops depths := by
  simp [namedLabels, mem_divisions, op_notMem_named]

/-- No label is created twice. -/
theorem labels_nodup : (labels options ops depths).Nodup := by
  rw [labels, namedLabels, List.nodup_append, List.nodup_append]
  refine ⟨?_, ⟨divisions_nodup _ _, named_nodup _ _, ?_⟩, ?_⟩
  · exact List.pairwise_map.mpr (List.nodup_range.imp fun hne heq => hne (CodeLabel.op.inj heq))
  · rintro _ hdivide _ hnamed rfl
    obtain ⟨_, _, _, -, -, rfl⟩ := mem_divisions.mp hdivide
    exact divide_notMem_named hnamed
  · rintro _ hop _ hnamed rfl
    obtain ⟨addr, -, rfl⟩ := List.mem_map.mp hop
    exact op_notMem_namedLabels hnamed

theorem mem_labels_op {addr : Nat} (h : addr < ops.size) : .op addr ∈ labels options ops depths :=
  List.mem_append_left _ (List.mem_map_of_mem (List.mem_range.mpr h))

theorem mem_labels_divide {addr depth : Nat} {op : Op} (hop : ops[addr]? = some op)
    (hdepth : Flow.At depths addr depth) (hdivides : divides op = true) :
    .divide addr ∈ labels options ops depths := by
  have hentry : (ops.toList.zip depths.toList)[addr]? = some (op, some depth) := by
    rw [List.getElem?_zip_eq_some]
    exact ⟨by simpa using hop, by simpa [Flow.At] using hdepth⟩
  have hmem := mem_divisions.mpr ⟨addr, op, depth, hentry, hdivides, congrArg _ (Nat.zero_add addr).symm⟩
  exact List.mem_append_right _ (List.mem_append_left _ hmem)

theorem mem_labels_named {mark : CodeLabel} (h : mark ∈ named options.entryPoint (needs ops)) :
    mark ∈ labels options ops depths :=
  List.mem_append_right _ (List.mem_append_right _ h)

/-- What an operation that control reaches refers to was created. -/
theorem uses_subset_labels (hclosed : Flow.Closed ops [] depths) (hsize : depths.size = ops.size)
    {addr depth : Nat} {op : Op} (hop : ops[addr]? = some op) (hdepth : Flow.At depths addr depth)
    {mark : CodeLabel} (hmark : mark ∈ uses addr op) : mark ∈ labels options ops depths := by
  have hmem := Array.mem_of_getElem? hop
  -- Transfers that control reaches go to operations.
  have htarget : ∀ target, op.target? = some target → .op target.toNat ∈ labels options ops depths := by
    intro target htarget
    obtain ⟨op', hpasses⟩ := hclosed addr depth hdepth
    obtain rfl : op = op' := Option.some.inj (hop.symm.trans hpasses.get)
    have hseen := hpasses.onward target.toNat (Op.mem_successors.mpr (.inl ⟨target, htarget, rfl⟩))
    have hat := hseen.resolve_right List.not_mem_nil
    exact mem_labels_op (hsize ▸ (Array.getElem?_eq_some_iff.mp hat).1)
  cases op with
  | jump target => exact List.mem_singleton.mp hmark ▸ htarget target rfl
  | jumpIf target => exact List.mem_singleton.mp hmark ▸ htarget target rfl
  | print ty =>
      obtain rfl := List.mem_singleton.mp hmark
      cases ty with
      | int => exact mem_labels_named (by simp [named, mem_optional, needs, printer, hmem])
      | bool => exact mem_labels_named (by simp [named, mem_optional, needs, printer, hmem])
  | exit =>
      obtain rfl := List.mem_singleton.mp hmark
      exact mem_labels_named (by simp [named])
  | binary op =>
      obtain ⟨hdivides, hmark⟩ := mem_optional.mp hmark
      have hneeds : (needs ops).trap = true := Array.any_eq_true'.mpr ⟨_, hmem, hdivides⟩
      rcases List.mem_cons.mp hmark with rfl | hmark
      · exact mem_labels_named (by simp [named, mem_optional, hneeds])
      · obtain rfl := List.mem_singleton.mp hmark
        exact mem_labels_divide hop hdepth hdivides
  | _ => cases hmark

theorem refers_support (entryPoint : Bool) (needs : Needs) :
    Refers (named entryPoint needs) (support needs) := by
  simp only [support, refers_append]
  refine ⟨⟨⟨⟨refers_optional fun h => ?_, refers_optional fun h => ?_⟩, refers_optional fun h => ?_⟩, ?_⟩, ?_⟩
  · simp [Routines.trap, refers_place, refers_code, Instr.target?, named, mem_optional, h]
  · simp [Routines.printInt, refers_append, refers_place, refers_code, Instr.target?, named, mem_optional, h]
  · simp [Routines.printBool, refers_append, refers_place, refers_code, Instr.target?, named, mem_optional, h]
  · exact refers_optional fun _ => by simp [Routines.datum, Refers, Instr.target?]
  · exact refers_optional fun _ => by simp [Routines.datum, Refers, Instr.target?]

end

section
variable {options : CodeOptions} {program : Program} {depths : Flow.Depths} {script : Script}

theorem length_entries (hsize : depths.size = program.ops.size) :
    (program.ops.toList.zip depths.toList).length = program.ops.size := by
  rw [List.length_zip, Array.length_toList, Array.length_toList, hsize, Nat.min_self]

theorem placements_named (entryPoint : Bool) (needs : Needs) :
    (placements (optional entryPoint Routines.start) ++ [CodeLabel.main] ++ [CodeLabel.leave] ++
      placements (support needs)).Perm (named entryPoint needs) := by
  obtain ⟨printInt, printBool, trap⟩ := needs
  revert entryPoint printInt printBool trap
  decide

/-- The labels that are placed are those that were created, in another order. -/
theorem placements_script (hsize : depths.size = program.ops.size)
    (h : CodeGeneration.script options program depths = .ok script) :
    (placements script).Perm (labels options program.ops depths) := by
  obtain ⟨code, scripts, -, hscripts, rfl⟩ := script_eq_ok h
  have hops := hscripts.placements
  rw [length_entries hsize, ← List.range_eq_range'] at hops
  rw [labels, namedLabels, ← List.append_assoc]
  refine List.Perm.trans ?_ (hops.append (placements_named options.entryPoint (needs program.ops)))
  simp only [placements_append, Script.placements, placements_code]
  rw [List.perm_iff_count]
  intro mark
  simp only [List.count_append]
  omega

theorem spaced_script (h : CodeGeneration.script options program depths = .ok script) : Spaced script := by
  obtain ⟨code, scripts, hcode, hscripts, rfl⟩ := script_eq_ok h
  have hprologue : code ≠ [] := by
    obtain ⟨size, -, rfl⟩ := Frame.prologue_eq_ok hcode
    simp [Frame.setup]
  have hstart : Spaced (optional options.entryPoint Routines.start) :=
    spaced_optional (spaced_place_code (by simp))
  exact (((hstart.append (spaced_place_code hprologue)).append hscripts.spaced).append
    (spaced_place_code (by simp [Frame.epilogue]))).append (spaced_support _)

/-- All labels that code refers to have fixed names or are used by an operation that control reaches. -/
theorem refers_of_uses (h : CodeGeneration.script options program depths = .ok script) {known : List CodeLabel}
    (hnamed : ∀ mark ∈ named options.entryPoint (needs program.ops), mark ∈ known)
    (huses : ∀ addr op depth, program.ops[addr]? = some op → Flow.At depths addr depth →
      ∀ mark ∈ uses addr op, mark ∈ known) : Refers known script := by
  obtain ⟨code, scripts, hcode, hscripts, rfl⟩ := script_eq_ok h
  simp only [refers_append, refers_place]
  refine ⟨⟨⟨⟨refers_optional fun _ => ?_, Quiet.refers ?_ _⟩, hscripts.refers ?_⟩, Quiet.refers ?_ _⟩, ?_⟩
  · have hmain : .main ∈ known := hnamed _ (by simp [named])
    simp [Routines.start, refers_place, refers_code, Instr.target?, hmain]
  · obtain ⟨size, -, rfl⟩ := Frame.prologue_eq_ok hcode
    exact Frame.target?_setup
  · intro addr op depth hentry mark hmark
    rw [Nat.zero_add] at hmark
    rw [List.getElem?_zip_eq_some] at hentry
    exact huses addr op depth (by simpa using hentry.1) (by simpa [Flow.At] using hentry.2) mark hmark
  · simp [Quiet, Frame.epilogue, Instr.target?]
  · exact (refers_support _ _).mono hnamed

theorem refers_script (hclosed : Flow.Closed program.ops [] depths) (hsize : depths.size = program.ops.size)
    (h : CodeGeneration.script options program depths = .ok script) :
    Refers (labels options program.ops depths) script :=
  refers_of_uses h (fun _ => mem_labels_named)
    fun _ _ _ hop hdepth _ hmark => uses_subset_labels hclosed hsize hop hdepth hmark

theorem disciplined_script (hdepths : program.depths = .ok depths)
    (h : CodeGeneration.script options program depths = .ok script) :
    Disciplined (labels options program.ops depths) script := by
  obtain ⟨-, hclosed, hsize⟩ := Program.depths_spec hdepths
  exact ⟨labels_nodup, placements_script hsize h, spaced_script h, solid_script h,
    refers_script hclosed hsize h⟩

theorem exists_plain {addr : Nat} {op : Op}
    (h : ∀ slot, op.slot? = some slot → ∃ offset, Frame.offset slot.toNat = .ok offset) :
    ∃ code, plain addr op = .ok code := by
  cases op with
  | load slot | store slot =>
      obtain ⟨offset, hoffset⟩ := h slot rfl
      rw [plain, hoffset]
      exact ⟨_, rfl⟩
  | binary op =>
      rw [plain]
      split <;> exact ⟨_, rfl⟩
  | _ => exact ⟨_, rfl⟩

theorem exists_cached {addr depth : Nat} {op : Op}
    (h : ∀ slot, op.slot? = some slot → ∃ offset, Frame.offset slot.toNat = .ok offset) :
    ∃ code, cached addr depth op = .ok code := by
  cases op with
  | load slot | store slot =>
      obtain ⟨offset, hoffset⟩ := h slot rfl
      rw [cached, hoffset]
      exact ⟨_, rfl⟩
  | binary op =>
      rw [cached]
      split <;> exact ⟨_, rfl⟩
  | _ => exact ⟨_, rfl⟩

theorem exists_operation {stackBased : Bool} {addr : Nat} {depth : Option Nat} {op : Op}
    (h : ∀ slot, op.slot? = some slot → ∃ offset, Frame.offset slot.toNat = .ok offset) :
    ∃ script, operation stackBased addr depth op = .ok script := by
  cases depth with
  | none => exact ⟨_, rfl⟩
  | some depth =>
      cases stackBased
      · obtain ⟨code, hcode⟩ := exists_cached h
        exact ⟨.place (.op addr) :: code, by rw [operation, if_neg Bool.false_ne_true, hcode]; rfl⟩
      · obtain ⟨code, hcode⟩ := exists_plain h
        exact ⟨.place (.op addr) :: code, by rw [operation, if_pos rfl, hcode]; rfl⟩

theorem exists_script {size : Nat} (hverify : program.verify = .ok ())
    (hframe : Frame.size program.slots.size = .ok size) :
    ∃ script, CodeGeneration.script options program depths = .ok script := by
  have hslots := (Program.verify_spec hverify).1
  have hcode : Frame.prologue program.slots.size = .ok (Frame.setup program.slots.size size : Code) :=
    Frame.prologue_of_size hframe
  have hscripts : ∃ scripts, Scripts options.stackBased 0 (program.ops.toList.zip depths.toList) scripts := by
    refine exists_mapM fun entry hentry => exists_operation fun slot hslot => ?_
    have hop := (List.of_mem_zip (List.fst_mem_of_mem_zipIdx hentry)).1
    obtain ⟨addr, haddr⟩ := Array.getElem?_of_mem (Array.mem_toList_iff.mp hop)
    exact ⟨_, Frame.offset_of_size hframe (hslots addr entry.1.1 slot haddr hslot)⟩
  obtain ⟨scripts, hscripts⟩ := hscripts
  have hbody : operations options program.ops.toList depths.toList = .ok scripts.flatten := by
    show List.flatten <$> _ = _
    rw [hscripts]
    rfl
  rw [CodeGeneration.script, hcode, hbody]
  exact ⟨_, rfl⟩

end

end CodeGeneration

end GotoLang.X64
