import GotoLang.Proofs.Optimize.Fold
import GotoLang.Proofs.Optimize.Jumps
import GotoLang.Proofs.Optimize.Prune
import GotoLang.Proofs.Optimize.Renumber

/-!
# Optimized programs behave as before

A pass makes one change after the other. Each change keeps the runs of the operations, whatever
operations it is made to, and leaves a program that the next change can be made to. So any passes may
follow each other in any order.
-/
namespace GotoLang

/-- A pass over a program. -/
inductive Pass where
  | foldConstants
  | threadJumps
  | prune
  | bypassJumps
  | renumber
  /-- All passes of a level. -/
  | optimize (level : OptLevel)

/-- Addresses of a program can be written, and each operation has a line. -/
structure Program.Regular (program : Program) : Prop where
  size : program.ops.size < 4294967296
  lines : program.lines.size = program.ops.size

namespace Pass

def apply (program : Program) : Pass → Program
  | foldConstants => { program with ops := (Op.foldConstants program.ops).1 }
  | threadJumps => { program with ops := (Op.threadJumps program.ops).1 }
  | prune => { program with ops := (Op.prune program.ops).1 }
  | bypassJumps => { program with ops := (Op.bypassJumps program.ops).1 }
  | renumber => program.renumber.1
  | optimize level => (program.optimize level).1

/-- One pass after the other. -/
def applyAll (passes : List Pass) (program : Program) : Program :=
  passes.foldl apply program

end Pass

/-- One change that a pass makes to operations. -/
inductive Op.Change : Array Op → Array Op → Prop
  | fold {ops ops' : Array Op} : Fold.Step ops ops' → Change ops ops'
  | thread {ops ops' : Array Op} : Jumps.Thread ops ops' → Change ops ops'
  | bypass {ops ops' : Array Op} : Jumps.Bypass ops ops' → Change ops ops'
  | prune (ops : Array Op) : Change ops (prune ops).1

theorem Op.Change.size {ops ops' : Array Op} (h : Change ops ops') : ops'.size = ops.size := by
  cases h with
  | fold h => exact h.size
  | thread h => exact h.size
  | bypass h => exact h.size
  | prune => exact size_prune ops

theorem Op.Change.sameRuns {ops ops' : Array Op} (h : Change ops ops') : SameRuns ops ops' := by
  cases h with
  | fold h => exact h.sameRuns
  | thread h => exact h.sameRuns
  | bypass h => exact h.sameRuns
  | prune => exact prune_sameRuns ops

/-- One change after the other. -/
abbrev Op.Changes : Array Op → Array Op → Prop :=
  Relation.ReflTransGen Op.Change

theorem Op.changes_foldConstants (ops : Array Op) : Changes ops (foldConstants ops).1 :=
  (steps_foldConstants ops).lift id fun _ _ => .fold

theorem Op.changes_threadJumps {ops : Array Op} (hsize : ops.size < 4294967296) :
    Changes ops (threadJumps ops).1 :=
  (steps_threadJumps hsize).lift id fun _ _ => .thread

theorem Op.changes_bypassJumps (ops : Array Op) : Changes ops (bypassJumps ops).1 :=
  (steps_bypassJumps ops).lift id fun _ _ => .bypass

namespace Optimize
variable {ops : Array Op} {progress : Progress}

theorem size_of_changes {ops' : Array Op} (h : Op.Changes ops ops') : ops'.size = ops.size := by
  induction h with
  | refl => rfl
  | tail _ h ih => exact h.size.trans ih

theorem changes_fold (h : Op.Changes ops progress.1) : Op.Changes ops (fold progress).1 :=
  h.trans (Op.changes_foldConstants progress.1)

theorem changes_thread (hops : ops.size < 4294967296) (h : Op.Changes ops progress.1) :
    Op.Changes ops (thread progress).1 :=
  h.trans (Op.changes_threadJumps (size_of_changes h ▸ hops))

theorem changes_prune (h : Op.Changes ops progress.1) : Op.Changes ops (prune progress).1 :=
  h.tail (.prune progress.1)

theorem changes_bypass (h : Op.Changes ops progress.1) : Op.Changes ops (bypass progress).1 :=
  h.trans (Op.changes_bypassJumps progress.1)

theorem changes_round (hops : ops.size < 4294967296) (h : Op.Changes ops progress.1) :
    Op.Changes ops (round progress).1 :=
  changes_bypass (changes_prune (changes_thread hops (changes_fold h)))

theorem changes_rounds (hops : ops.size < 4294967296) (bound : Nat)
    (h : Op.Changes ops progress.1) : Op.Changes ops (rounds bound progress).1 := by
  induction bound generalizing progress with
  | zero => exact h
  | succ bound ih =>
      rw [rounds]
      split
      · exact changes_round hops h
      · exact ih (changes_round hops h)

theorem changes_passes (hops : ops.size < 4294967296) (level : OptLevel) :
    Op.Changes ops (passes level ops).1 := by
  have hstart : Op.Changes ops (ops, ({} : OptStats)).1 := .refl
  cases level with
  | none => exact hstart
  | o1 =>
      rw [passes]
      exact changes_fold hstart
  | o2 =>
      rw [passes]
      exact changes_prune (changes_thread hops (changes_fold hstart))
  | o3 =>
      rw [passes]
      exact changes_rounds hops _ hstart

end Optimize

namespace Program

/-- One change that a pass makes to a program. -/
inductive Change : Program → Program → Prop
  | ops {program : Program} {ops : Array Op} :
      Op.Changes program.ops ops → Change program { program with ops }
  | renumber (program : Program) : Change program program.renumber.1

theorem Change.slots {program program' : Program} (h : Change program program') :
    program'.slots = program.slots := by
  cases h <;> rfl

theorem Change.regular {program program' : Program} (h : Change program program')
    (hreg : program.Regular) : program'.Regular := by
  cases h with
  | ops h =>
      have hsize := Optimize.size_of_changes h
      exact ⟨hsize ▸ hreg.size, hreg.lines.trans hsize.symm⟩
  | renumber =>
      refine ⟨?_, size_lines_renumber program⟩
      rw [size_ops_renumber hreg.lines]
      exact (Renumber.liveBefore_le _ _).trans_lt hreg.size

theorem Change.sameRuns {program program' : Program} (h : Change program program')
    (hreg : program.Regular) : SameRuns program.ops program'.ops := by
  cases h with
  | ops h =>
      induction h with
      | refl => exact .refl _
      | tail _ h ih => exact ih.trans h.sameRuns
  | renumber => exact renumber_sameRuns hreg.size hreg.lines

/-- A program and one that was made from it: the same variables and the same runs. -/
def Preserves (program program' : Program) : Prop :=
  program'.Regular ∧ program'.slots = program.slots ∧ SameRuns program.ops program'.ops

theorem preserves_of_changes {program program' : Program} (hreg : program.Regular)
    (h : Relation.ReflTransGen Change program program') : program.Preserves program' := by
  induction h with
  | refl => exact ⟨hreg, rfl, .refl _⟩
  | tail _ h ih =>
      obtain ⟨hreg', hslots, hruns⟩ := ih
      exact ⟨h.regular hreg', h.slots.trans hslots, hruns.trans (h.sameRuns hreg')⟩

theorem changes_optimize {program : Program} (hreg : program.Regular) (level : OptLevel) :
    Relation.ReflTransGen Change program (program.optimize level).1 := by
  rw [optimize]
  split
  · exact .refl
  · have hops := Optimize.changes_passes hreg.size level
    exact .tail (.single (.ops hops)) (.renumber _)

end Program

namespace Pass

theorem changes_apply {program : Program} (hreg : program.Regular) (pass : Pass) :
    Relation.ReflTransGen Program.Change program (pass.apply program) := by
  cases pass with
  | foldConstants =>
      exact .single (.ops (Op.changes_foldConstants program.ops))
  | threadJumps =>
      exact .single (.ops (Op.changes_threadJumps hreg.size))
  | prune => exact .single (.ops (.single (.prune program.ops)))
  | bypassJumps =>
      exact .single (.ops (Op.changes_bypassJumps program.ops))
  | renumber => exact .single (.renumber program)
  | optimize level => exact Program.changes_optimize hreg level

theorem changes_applyAll {program : Program} (hreg : program.Regular) (passes : List Pass) :
    Relation.ReflTransGen Program.Change program (applyAll passes program) := by
  induction passes generalizing program with
  | nil => exact .refl
  | cons pass passes ih =>
      have hpass := changes_apply hreg pass
      exact hpass.trans (ih (Program.preserves_of_changes hreg hpass).1)

end Pass

/-- Programs with the same variables and runs end alike or not at all. -/
theorem Program.Preserves.endsWith_iff {program program' : Program}
    (h : program.Preserves program') (out err : Sink) (ending : Ending) :
    (∃ e, program.EndsWith out err e ∧ e.Alike ending) ↔
      ∃ e, program'.EndsWith out err e ∧ e.Alike ending := by
  have hstart : Machine.start program' out err = Machine.start program out err := by
    rw [Machine.start, Machine.start, h.2.1]
  simp only [Program.endsWith_iff, hstart]
  exact h.2.2 _ rfl ending

/-- A program that went through any passes in any order ends if and only if it ended before, with the
same bytes on both sinks and the same status or, apart from its address, the same fault. -/
theorem Pass.applyAll_behaves_alike (passes : List Pass) (program : Program)
    (hsize : program.ops.size < 4294967296) (hlines : program.lines.size = program.ops.size)
    (out err : Sink) :
    ((applyAll passes program).Terminates out err ↔ program.Terminates out err) ∧
    ∀ e e', (applyAll passes program).EndsWith out err e → program.EndsWith out err e' →
      e.Alike e' := by
  have hreg : program.Regular := ⟨hsize, hlines⟩
  have h := (Program.preserves_of_changes hreg (changes_applyAll hreg passes)).endsWith_iff out err
  refine ⟨⟨?_, ?_⟩, fun e e' he he' => ?_⟩
  · rintro ⟨e, he⟩
    obtain ⟨e', he', -⟩ := (h e).mpr ⟨e, he, .refl e⟩
    exact ⟨e', he'⟩
  · rintro ⟨e, he⟩
    obtain ⟨e', he', -⟩ := (h e).mp ⟨e, he, .refl e⟩
    exact ⟨e', he'⟩
  · obtain ⟨e'', he'', ha⟩ := (h e').mp ⟨e', he', .refl e'⟩
    exact he''.unique he ▸ ha

/-- A constant condition behind an empty operation, a chain of two jumps and an unreachable operation:
folded, shortened, pruned and renumbered in this order, the program still exits with seven. -/
theorem Pass.applyAll_behaves_alike_exit :
    let program : Program :=
      { ops := #[.push 1, .nop, .jumpIf 4, .exit, .jump 5, .push 7, .exit]
        lines := #[1, 1, 1, 2, 3, 4, 4] }
    program.ops.size < 4294967296 ∧ program.lines.size = program.ops.size ∧
    ∃ e, (applyAll [foldConstants, threadJumps, prune, renumber, optimize .o3] program).EndsWith
      {} {} e ∧ e.Alike ⟨.ok 7, #[], #[]⟩ := by
  intro program
  have hsize : program.ops.size < 4294967296 := by decide
  have hlines : program.lines.size = program.ops.size := by decide
  have hends : program.EndsWith {} {} ⟨.ok 7, #[], #[]⟩ := ⟨6, rfl⟩
  obtain ⟨hiff, halike⟩ := applyAll_behaves_alike
    [foldConstants, threadJumps, prune, renumber, optimize .o3] program hsize hlines {} {}
  obtain ⟨e, he⟩ := hiff.mpr ⟨_, hends⟩
  exact ⟨hsize, hlines, e, he, halike e _ he hends⟩

end GotoLang
