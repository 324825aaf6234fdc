import GotoLang.Compilation
import GotoLang.Proofs.Checking
import GotoLang.Proofs.Lowering.Code
import GotoLang.Proofs.Optimize.Typing

/-!
# Optimized programs pass the check

What the check demands of a program is kept by every change that a pass makes. The typing is kept as any
typing is. Slots are checked in all operations, reached or not; a change leaves an operation as it is or
puts one without a slot into its place. So the check after the optimizer never fails because of it.
-/
namespace GotoLang

theorem Fold.Window.slot? {ops : Array Op} {first last : Nat} {op : Op}
    (h : Window ops first last op) : op.slot? = none := by
  cases h with
  | unary => rfl
  | jumpIf => split <;> rfl
  | binary => rfl

theorem Op.slot?_setIfInBounds {ops : Array Op} {changed addr : Nat} {new op : Op}
    (hnew : new.slot? = none) (ho : (ops.setIfInBounds changed new)[addr]? = some op) :
    op.slot? = none ∨ ops[addr]? = some op := by
  by_cases heq : changed = addr
  · left
    rw [Array.getElem?_setIfInBounds, if_pos heq] at ho
    split at ho
    · cases ho
      exact hnew
    · cases ho
  · rw [Array.getElem?_setIfInBounds_ne heq] at ho
    exact .inr ho

/-- The operation that stands at an address after a change has no slot or stood there before. -/
theorem Op.Change.slot? {ops ops' : Array Op} (h : Change ops ops') {addr : Nat} {op : Op}
    (ho : ops'[addr]? = some op) : op.slot? = none ∨ ops[addr]? = some op := by
  cases h with
  | fold hstep =>
      obtain ⟨_, first, last, folded, -, -, hw, hc⟩ := hstep
      by_cases hin : first ≤ addr ∧ addr ≤ last
      · left
        rcases Nat.eq_or_lt_of_le hin.1 with rfl | hlt
        · rw [hc.atFirst] at ho
          cases ho
          exact hw.slot?
        · rw [hc.inside addr hlt (by omega)] at ho
          cases ho
          rfl
      · rw [hc.outside addr hin] at ho
        exact .inr ho
  | thread hstep =>
      obtain ⟨changed, old, target, final, new, -, -, hnew, -, rfl⟩ := hstep
      have hslot : new.slot? = none := by cases old <;> cases hnew <;> rfl
      exact Op.slot?_setIfInBounds hslot ho
  | bypass hstep =>
      obtain ⟨changed, target, next, -, -, -, rfl⟩ := hstep
      exact Op.slot?_setIfInBounds rfl ho
  | prune =>
      rw [Op.prune, Array.getElem?_mapIdx] at ho
      obtain ⟨old, hold, hop⟩ := Option.map_eq_some_iff.mp ho
      split at hop
      · rw [← hop]
        exact .inr hold
      · rw [← hop]
        exact .inl rfl

theorem Renumber.slot?_op (ops : Array Op) (o : Op) : (op ops o).slot? = o.slot? := by
  cases o <;> rfl

namespace Program

theorem KnowsSlots.ops {program : Program} {ops : Array Op} (h : program.KnowsSlots)
    (hc : Op.Changes program.ops ops) : KnowsSlots { program with ops } := by
  induction hc with
  | refl => exact h
  | tail _ hc ih =>
      intro op hop slot hslot
      obtain ⟨addr, ho⟩ := Array.mem_iff_getElem?.mp hop
      rcases hc.slot? ho with hnone | hold
      · rw [hnone] at hslot
        cases hslot
      · exact ih op (Array.mem_of_getElem? hold) slot hslot

theorem KnowsSlots.renumber {program : Program} (h : program.KnowsSlots)
    (hlines : program.lines.size = program.ops.size) : program.renumber.1.KnowsSlots := by
  intro op hop slot hslot
  rw [← Array.mem_toList_iff, toList_ops_renumber hlines] at hop
  obtain ⟨old, hold, rfl⟩ := List.mem_map.mp hop
  rw [Renumber.slot?_op] at hslot
  exact h old (Array.mem_toList_iff.mp (List.mem_filter.mp hold).1) slot hslot

theorem Change.knowsSlots {program program' : Program} (hc : Change program program')
    (hreg : program.Regular) (h : program.KnowsSlots) : program'.KnowsSlots := by
  cases hc with
  | ops hc => exact h.ops hc
  | renumber => exact h.renumber hreg.lines

/-- A program that passes the check passes it after any changes. -/
theorem verify_of_changes {program program' : Program} (hsize : program.ops.size < 4294967296)
    (hv : program.verify = .ok ()) (hc : Relation.ReflTransGen Change program program') :
    program'.verify = .ok () := by
  obtain ⟨hlines, hslots, htyped⟩ := (verify_iff_wellTyped hsize).mp hv
  have hreg : program.Regular := ⟨hsize, hlines⟩
  obtain ⟨hreg', -, -⟩ := preserves_of_changes hreg hc
  refine verify_of_wellTyped hreg'.size hreg'.lines ?_ (wellTyped_of_changes hreg hc htyped)
  induction hc with
  | refl => exact hslots
  | tail hcs hc ih =>
      have hmid := (preserves_of_changes hreg hcs).1
      exact hc.knowsSlots hmid (ih hmid)

end Program

namespace Compilation

theorem bind_yields {α β : Type} {x : Compile α} {f : α → Compile β} {c c' : Compilation} {a : α}
    {b : β} (h : x c = .ok a c') (k : ∃ c'', f a c' = .ok b c'') :
    ∃ c'', (x >>= f) c = .ok b c'' := by
  obtain ⟨c'', hk⟩ := k
  exact ⟨c'', bind_eq_ok.mpr ⟨a, c', h, hk⟩⟩

/-- A compilation goes on with the optimized program if that passes the check. -/
theorem optimize_eq_ok {program : Program} {c : Compilation}
    (h : (program.optimize c.config.level).1.verify = .ok ()) :
    ∃ c', optimize program c = .ok (program.optimize c.config.level).1 c' := by
  rw [optimize]
  refine bind_yields (a := c) rfl ?_
  dsimp only
  generalize program.optimize c.config.level = optimized at h ⊢
  obtain ⟨final, stats⟩ := optimized
  simp only [h]
  have hend : ∀ c₁, ∃ c', (setStats (fun stats => { stats with opsAfterOpt := final.ops.size }) >>=
      fun _ => pure final : Compile Program) c₁ = .ok final c' :=
    fun c₁ => bind_yields (a := ()) rfl ⟨_, rfl⟩
  -- Before this come two reports, each on a condition.
  split
  · refine bind_yields (a := ()) rfl ?_
    split
    · exact bind_yields (a := ()) rfl (hend _)
    · exact hend _
  · split
    · exact bind_yields (a := ()) rfl (hend _)
    · exact hend _

end Compilation

/-- A checked program passes the check after any passes in any order. So do its optimized forms, and the
compilation that optimizes it goes on, whatever its settings are. -/
theorem Pass.applyAll_verifies (passes : List Pass) (program : Program)
    (hsize : program.ops.size < 4294967296) (hv : program.verify = .ok ()) :
    (applyAll passes program).verify = .ok () ∧
    ∀ c : Compilation, ∃ c', Compilation.optimize (applyAll passes program) c =
      .ok ((applyAll passes program).optimize c.config.level).1 c' := by
  have hreg : program.Regular := ⟨hsize, (Program.verify_iff.mp hv).1⟩
  have hchanges := changes_applyAll hreg passes
  refine ⟨Program.verify_of_changes hsize hv hchanges, ?_⟩
  intro c
  apply Compilation.optimize_eq_ok
  have hreg' := (Program.preserves_of_changes hreg hchanges).1
  exact Program.verify_of_changes hsize hv
    (hchanges.trans (Program.changes_optimize hreg' c.config.level))

/-- A loop with an empty operation, a constant condition, a chain of jumps and a use of the variable that
is never reached. -/
theorem Pass.applyAll_verifies_loop :
    let program : Program :=
      { ops := #[.push 1, .nop, .jumpIf 5, .push 7, .store 0, .jump 6, .load 0, .push 1,
          .binary (.arith .add), .store 0, .load 0, .push 3, .binary (.cmp .lt), .jumpIf 5, .push 0, .exit]
        lines := #[1, 1, 1, 2, 2, 3, 4, 4, 4, 4, 5, 5, 5, 5, 6, 6]
        slots := #[⟨"i", .int⟩] }
    let shortened := applyAll [foldConstants, threadJumps, prune, renumber] program
    program.ops.size < 4294967296 ∧ program.verify = .ok () ∧ shortened.verify = .ok () ∧
    ∀ c : Compilation, ∃ c',
      Compilation.optimize shortened c = .ok (shortened.optimize c.config.level).1 c' := by
  intro program shortened
  have hsize : program.ops.size < 4294967296 := by decide
  have hv : program.verify = .ok () := by
    have hok : program.verify.isOk = true := by decide +kernel
    cases h : program.verify with
    | ok value => rfl
    | error fault =>
        rw [h] at hok
        cases hok
  exact ⟨hsize, hv, applyAll_verifies [foldConstants, threadJumps, prune, renumber] program hsize hv⟩

end GotoLang
