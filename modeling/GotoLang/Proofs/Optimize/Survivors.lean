import Mathlib.Data.Fintype.Fin
import GotoLang.Proofs.Optimize.DeadCode

/-!
# What is left of a program

Operations, lines and labels are kept apart, and only when empty operations are dropped do lines and labels follow the
operations. Until then every operation is in its place, so an operation that survives carries the line of its place, and
the new address of a label counts the survivors before the old one.

Each level makes further changes to what the level below leaves. Since no change fills an empty operation, a higher level
never leaves a longer program.
-/
namespace GotoLang

namespace Renumber
variable {ops : Array Op}

/-- A live operation gets a new address. -/
def Survives (ops : Array Op) (old new : Nat) : Prop :=
  ∃ op, ops[old]? = some op ∧ op ≠ .nop ∧ liveBefore ops old = new

/-- Survivors keep their order among each other and with respect to all other addresses. -/
theorem Survives.lt_iff {old new : Nat} (h : Survives ops old new) (addr : Nat) :
    old < addr ↔ new < liveBefore ops addr := by
  obtain ⟨op, ho, hop, rfl⟩ := h
  constructor
  · intro hlt
    have hafter := liveBefore_succ_of_live ho hop
    have hle : liveBefore ops (old + 1) ≤ liveBefore ops addr := liveBefore_mono hlt
    omega
  · intro hlt
    by_contra hle
    have hmono : liveBefore ops addr ≤ liveBefore ops old := liveBefore_mono (by omega)
    omega

section
variable {count bound : Nat} {source : Fin count → Fin bound} (h : ∀ i, Survives ops (source i) i)
include h

theorem strictMono_source : StrictMono source := by
  intro i j hlt
  obtain ⟨-, -, -, hj⟩ := h j
  rw [Fin.lt_def, (h i).lt_iff, hj]
  exact hlt

theorem card_source (hcount : count = liveBefore ops ops.size) (addr : Nat) :
    (Finset.univ.filter fun i => (source i : Nat) < addr).card = liveBefore ops addr := by
  have hbefore : (Finset.univ.filter fun i => (source i : Nat) < addr) =
      Finset.univ.filter fun i : Fin count => (i : Nat) < liveBefore ops addr :=
    Finset.filter_congr fun i _ => (h i).lt_iff addr
  rw [hbefore, Fin.card_filter_val_lt, hcount]
  exact Nat.min_eq_right (liveBefore_le_size ops addr)

end

theorem becomes_op (ops : Array Op) (o : Op) : o.Becomes (op ops o) := by
  cases o with
  | jump target | jumpIf target => exact .retarget rfl
  | _ => exact .same _

end Renumber

namespace Program
variable {program : Program}

/-- Where each operation was before empty operations were dropped. -/
theorem exists_source (hlines : program.lines.size = program.ops.size) {bound : Nat}
    (hbound : program.ops.size = bound) : ∃ source : Fin program.renumber.1.ops.size → Fin bound,
      ∀ i, Renumber.Survives program.ops (source i) i := by
  have hone : ∀ i : Fin program.renumber.1.ops.size, ∃ old : Fin bound, Renumber.Survives program.ops old i := by
    intro i
    obtain ⟨old, op, ho, hop, hcount, -⟩ :=
      exists_of_getElem?_renumber hlines (Array.getElem?_eq_getElem i.isLt)
    exact ⟨⟨old, hbound ▸ (Array.getElem?_eq_some_iff.mp ho).1⟩, op, ho, hop, hcount⟩
  choose source hsource using hone
  exact ⟨source, hsource⟩

section
variable {bound : Nat} {source : Fin program.renumber.1.ops.size → Fin bound}

theorem lines_source (hreg : program.Regular) (h : ∀ i, Renumber.Survives program.ops (source i) i)
    (i : Fin program.renumber.1.ops.size) :
    program.renumber.1.lines[(i : Nat)]? = program.lines[(source i : Nat)]? := by
  obtain ⟨op, ho, hop, hi⟩ := h i
  rw [← getElem?_lines_renumber hreg.lines ho hop, hi]

theorem ops_source (hreg : program.Regular) (h : ∀ i, Renumber.Survives program.ops (source i) i)
    (i : Fin program.renumber.1.ops.size) : ∃ op, program.ops[(source i : Nat)]? = some op ∧
      program.renumber.1.ops[(i : Nat)]? = some (Renumber.op program.ops op) := by
  obtain ⟨op, ho, hop, hi⟩ := h i
  have hnew := getElem?_renumber hreg.lines ho hop
  rw [hi] at hnew
  exact ⟨op, ho, hnew⟩

/-- The new address of a label counts what is left from before it. -/
theorem addr_source (hreg : program.Regular) (h : ∀ i, Renumber.Survives program.ops (source i) i) (addr : Addr) :
    (Renumber.addr program.ops addr).toNat =
        (Finset.univ.filter fun i => (source i : Nat) < addr.toNat).card ∧
      ∀ i, (source i : Nat) < addr.toNat ↔ (i : Nat) < (Renumber.addr program.ops addr).toNat := by
  rw [Renumber.toNat_addr hreg.size]
  exact ⟨(Renumber.card_source h (size_ops_renumber hreg.lines) addr.toNat).symm, fun i => (h i).lt_iff _⟩

end

theorem getElem?_marks_renumber {k : Nat} {mark : Mark} (h : program.marks[k]? = some mark) :
    program.renumber.1.marks[k]? = some { mark with addr := Renumber.addr program.ops mark.addr } := by
  simp only [renumber, Array.getElem?_map, h, Option.map_some]

theorem descends_passed (hsize : program.ops.size < 4294967296) (level : OptLevel) :
    Op.Descends program.ops (program.passed level).ops :=
  Op.descends_of_changes (Optimize.changes_passes hsize level)

/-- Debug information survives optimization. The operations that are left come from operations of the program in the same
order, carry the lines of these and are what changes have made of them. Labels keep their names and their order. A
label's new address is the number of operations left from before it, so it marks the first one left from there on, or
the end. Only where nothing is optimized a label behind the end stays where it is. Variables stay as they are. -/
theorem optimize_keeps_debug_info (program : Program) (level : OptLevel)
    (hsize : program.ops.size < 4294967296) (hlines : program.lines.size = program.ops.size) :
    let optimized := (program.optimize level).1
    ∃ source : Fin optimized.ops.size → Fin program.ops.size, StrictMono source ∧
      (optimized.lines.size = optimized.ops.size ∧
        ∀ i : Fin optimized.ops.size, optimized.lines[(i : Nat)]? = program.lines[(source i : Nat)]?) ∧
      (∀ i : Fin optimized.ops.size, ∃ op op', program.ops[(source i : Nat)]? = some op ∧
        optimized.ops[(i : Nat)]? = some op' ∧ op.Becomes op') ∧
      optimized.marks.map Mark.name = program.marks.map Mark.name ∧
      (∀ (k : Nat) (mark mark' : Mark), program.marks[k]? = some mark → optimized.marks[k]? = some mark' →
        (level ≠ .none ∨ mark.addr.toNat ≤ program.ops.size →
          mark'.addr.toNat = (Finset.univ.filter fun i => (source i : Nat) < mark.addr.toNat).card ∧
          ∀ i : Fin optimized.ops.size, (source i : Nat) < mark.addr.toNat ↔ (i : Nat) < mark'.addr.toNat) ∧
        (level = .none → mark' = mark)) ∧
      optimized.slots = program.slots := by
  intro optimized
  by_cases hlevel : level = .none
  · subst hlevel
    have hsame : optimized = program := rfl
    clear_value optimized
    subst hsame
    refine ⟨id, strictMono_id, ⟨hlines, fun i => rfl⟩, fun i => ?_, rfl, ?_, rfl⟩
    · have hop := Array.getElem?_eq_getElem i.isLt
      exact ⟨_, _, hop, hop, .same _⟩
    · intro k mark mark' hmark hmark'
      obtain rfl : mark = mark' := Option.some.inj (hmark.symm.trans hmark')
      refine ⟨fun hinside => ⟨?_, fun i => Iff.rfl⟩, fun _ => rfl⟩
      have hle := hinside.resolve_left fun hne => hne rfl
      simp only [id, Fin.card_filter_val_lt]
      omega
  · have hreg : (program.passed level).Regular := Regular.passed ⟨hsize, hlines⟩ level
    have hdescends := descends_passed hsize level
    have hshape : optimized = (program.passed level).renumber.1 := optimize_fst hlevel
    clear_value optimized
    subst hshape
    obtain ⟨source, hsource⟩ := exists_source hreg.lines hdescends.size
    refine ⟨source, Renumber.strictMono_source hsource, ⟨size_lines_renumber _, lines_source hreg hsource⟩,
      fun i => ?_, ?_, ?_, rfl⟩
    · obtain ⟨op, ho, hnew⟩ := ops_source hreg hsource i
      have hold := Array.getElem?_eq_getElem (source i).isLt
      exact ⟨_, _, hold, hnew, (hdescends.becomes _ _ _ hold ho).trans (Renumber.becomes_op _ op)⟩
    · simp only [renumber, Array.map_map]
      rfl
    · intro k mark mark' hmark hmark'
      have hnew : (program.passed level).renumber.1.marks[k]? = some _ := getElem?_marks_renumber hmark
      obtain rfl := Option.some.inj (hnew.symm.trans hmark')
      exact ⟨fun _ => addr_source hreg hsource mark.addr, fun hnone => absurd hnone hlevel⟩

/-- A label at an unreachable operation, one at the start of a loop, one at a jump to the next operation and one at the
end. -/
theorem optimize_keeps_debug_info_loop :
    let program : Program :=
      { ops := #[.jump 3, .push 9, .exit, .load 0, .jumpIf 3, .push 2, .push 3, .binary (.arith .add), .jump 9, .exit]
        lines := #[1, 2, 2, 4, 4, 5, 5, 5, 6, 7]
        slots := #[⟨"b", .bool⟩]
        marks := #[⟨"dead", 1⟩, ⟨"loop", 3⟩, ⟨"out", 8⟩, ⟨"end", 10⟩] }
    let optimized := (program.optimize .o3).1
    program.ops.size < 4294967296 ∧ program.lines.size = program.ops.size ∧
      optimized.lines = #[4, 4, 5, 7] ∧ optimized.slots = program.slots ∧
      optimized.marks = #[⟨"dead", 0⟩, ⟨"loop", 0⟩, ⟨"out", 3⟩, ⟨"end", 4⟩] ∧
      ∃ source : Fin optimized.ops.size → Fin program.ops.size, StrictMono source ∧
        (∀ i : Fin optimized.ops.size, optimized.lines[(i : Nat)]? = program.lines[(source i : Nat)]?) ∧
        3 = (Finset.univ.filter fun i => (source i : Nat) < 8).card := by
  intro program optimized
  have hsize : program.ops.size < 4294967296 := by decide
  have hlines : program.lines.size = program.ops.size := rfl
  have hmarks : optimized.marks = #[⟨"dead", 0⟩, ⟨"loop", 0⟩, ⟨"out", 3⟩, ⟨"end", 4⟩] := by decide +kernel
  obtain ⟨source, hmono, ⟨-, hline⟩, -, -, hlabels, hslots⟩ := optimize_keeps_debug_info program .o3 hsize hlines
  have hout := hlabels 2 ⟨"out", 8⟩ ⟨"out", 3⟩ rfl (hmarks ▸ rfl)
  exact ⟨hsize, hlines, by decide +kernel, hslots, hmarks, source, hmono, hline, (hout.1 (.inl (by decide))).1⟩

/-- Where nothing is optimized, the address of a label behind the end is no number of operations. -/
theorem optimize_none_keeps_far_label :
    let program : Program := { ops := #[.push 0, .exit], lines := #[1, 1], marks := #[⟨"a", 7⟩] }
    let optimized := (program.optimize .none).1
    program.ops.size < 4294967296 ∧ program.lines.size = program.ops.size ∧
      ¬ ∃ source : Fin optimized.ops.size → Fin program.ops.size, StrictMono source ∧
        ∀ (k : Nat) (mark mark' : Mark), program.marks[k]? = some mark → optimized.marks[k]? = some mark' →
          mark'.addr.toNat = (Finset.univ.filter fun i => (source i : Nat) < mark.addr.toNat).card := by
  intro program optimized
  refine ⟨by decide, rfl, ?_⟩
  rintro ⟨source, -, h⟩
  have hseven : 7 = (Finset.univ.filter fun i => (source i : Nat) < 7).card := h 0 ⟨"a", 7⟩ ⟨"a", 7⟩ rfl rfl
  have hle := Finset.card_filter_le Finset.univ fun i => (source i : Nat) < 7
  rw [← hseven, Finset.card_univ, Fintype.card_fin] at hle
  exact absurd hle (by decide)

theorem size_optimize (hreg : program.Regular) {level : OptLevel} (hlevel : level ≠ .none) :
    (program.optimize level).1.ops.size = Op.liveCount (Optimize.passes level program.ops).1 := by
  rw [optimize_fst hlevel, size_ops_renumber (hreg.passed level).lines, Op.liveCount_eq, ops_passed]

theorem removed_optimize {level : OptLevel} (hlevel : level ≠ .none) :
    (program.optimize level).2.removed =
      (program.passed level).ops.size - Op.liveCount (Optimize.passes level program.ops).1 := by
  rw [optimize_eq_renumber hlevel, Op.liveCount_eq, ← ops_passed]
  rfl

end Program

namespace Optimize
variable {ops : Array Op}

/-- The second level goes on where the first one stops. -/
theorem changes_first_second (hsize : ops.size < 4294967296) :
    Op.Changes (passes .o1 ops).1 (passes .o2 ops).1 := by
  have hsame := size_of_changes (changes_passes hsize .o1)
  rw [passes] at hsame
  rw [passes, passes]
  generalize fold (ops, {}) = folded at hsame ⊢
  exact changes_prune (changes_thread (hsame ▸ hsize) .refl)

/-- The last level begins with the second one. -/
theorem changes_second_last (hsize : ops.size < 4294967296) :
    Op.Changes (passes .o2 ops).1 (passes .o3 ops).1 := by
  have hsame := size_of_changes (changes_passes hsize .o2)
  rw [passes] at hsame
  rw [passes, passes, rounds, round]
  generalize prune (thread (fold (ops, {}))) = pruned at hsame ⊢
  have hbypass : Op.Changes pruned.1 (bypass pruned).1 := changes_bypass .refl
  split
  · exact hbypass
  · exact changes_rounds (hsame ▸ hsize) _ hbypass

end Optimize

namespace Program

/-- A higher level never leaves a longer program, and what is counted as removed is what a level leaves less. -/
theorem optimize_never_grows (program : Program) (hsize : program.ops.size < 4294967296)
    (hlines : program.lines.size = program.ops.size) :
    (program.optimize .o3).1.ops.size ≤ (program.optimize .o2).1.ops.size ∧
    (program.optimize .o2).1.ops.size ≤ (program.optimize .o1).1.ops.size ∧
    (program.optimize .o1).1.ops.size ≤ program.ops.size ∧
    ∀ level ≠ .none, (program.optimize level).2.removed + (program.optimize level).1.ops.size =
      program.ops.size := by
  have hreg : program.Regular := ⟨hsize, hlines⟩
  have hlevels : ∀ {first second : OptLevel}, first ≠ .none → second ≠ .none →
      Op.Changes (Optimize.passes first program.ops).1 (Optimize.passes second program.ops).1 →
      (program.optimize second).1.ops.size ≤ (program.optimize first).1.ops.size := by
    intro first second hfirst hsecond hchanges
    rw [size_optimize hreg hfirst, size_optimize hreg hsecond]
    exact (Op.descends_of_changes hchanges).emptied.liveCount_le
  have hbound : ∀ level, Op.liveCount (Optimize.passes level program.ops).1 ≤ program.ops.size := by
    intro level
    exact (descends_passed hsize level).emptied.liveCount_le.trans (Op.liveCount_le_size _)
  refine ⟨hlevels (by decide) (by decide) (Optimize.changes_second_last hsize),
    hlevels (by decide) (by decide) (Optimize.changes_first_second hsize), ?_, fun level hlevel => ?_⟩
  · rw [size_optimize hreg (by decide)]
    exact hbound .o1
  · rw [removed_optimize hlevel, size_optimize hreg hlevel, (descends_passed hsize level).size]
    exact Nat.sub_add_cancel (hbound level)

/-- A sum of constants, an unreachable operation and a jump to the next one: each level leaves less. -/
theorem optimize_never_grows_strictly :
    let program : Program :=
      { ops := #[.push 2, .push 3, .binary (.arith .add), .store 0, .jump 6, .nop, .push 0, .exit, .push 9, .exit]
        lines := #[1, 1, 1, 1, 2, 3, 4, 4, 5, 5]
        slots := #[⟨"n", .int⟩] }
    program.ops.size < 4294967296 ∧ program.lines.size = program.ops.size ∧
      (program.optimize .o3).1.ops.size = 4 ∧ (program.optimize .o2).1.ops.size = 5 ∧
      (program.optimize .o1).1.ops.size = 7 ∧ (program.optimize .o3).2.removed = 6 := by
  intro program
  have hsize : program.ops.size < 4294967296 := by decide
  have hlines : program.lines.size = program.ops.size := rfl
  have hlast : (program.optimize .o3).1.ops.size = 4 := by decide +kernel
  obtain ⟨-, -, -, hremoved⟩ := optimize_never_grows program hsize hlines
  have hsum := hremoved .o3 (by decide)
  rw [hlast] at hsum
  exact ⟨hsize, hlines, hlast, by decide +kernel, by decide +kernel, Nat.add_right_cancel hsum⟩

end Program

end GotoLang
