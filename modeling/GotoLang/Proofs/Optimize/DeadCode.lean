import GotoLang.Proofs.Optimize.Checking
import GotoLang.Proofs.Optimize.Rounds
import GotoLang.Proofs.X64.Compiled

/-!
# No dead code

The flags that pruning goes by are exact: the search flags an operation if and only if some path of control gets to
it. What is left of an operation that no path gets to is empty, and the paths to the others are as before. When
empty operations are dropped in the end, a path passes the same live operations at their new addresses.

So from the second level on, every operation of an optimized program is on a path. The check knows a depth
at each of them, and machine code has no undefined instruction.
-/
namespace GotoLang

/-- Some path of control gets to an address. -/
def Flow.Reachable (ops : Array Op) (addr : Nat) : Prop :=
  ∃ passed, Path ops passed addr

theorem Flow.Reachable.step {ops : Array Op} {addr next : Nat} {op : Op} (h : Reachable ops addr)
    (ho : ops[addr]? = some op) (hnext : next ∈ op.successors addr) : Reachable ops next := by
  obtain ⟨passed, hpath⟩ := h
  exact ⟨passed ++ [op], hpath.step ho hnext⟩

/-- Every live operation is on a path. -/
def Op.Pruned (ops : Array Op) : Prop :=
  ∀ (addr : Nat) (op : Op), ops[addr]? = some op → op ≠ .nop → Flow.Reachable ops addr

namespace Prune
variable {ops : Array Op}

/-- If all that a search has flagged or has still to visit is on paths, then so is all that it flags in the end. -/
theorem reachable_of_follow (visits : Nat) {work : List Nat} {flags : Array Bool} {addr : Nat}
    (hsize : flags.size = ops.size) (hseen : ∀ addr, Seen work flags addr → Flow.Reachable ops addr)
    (hflag : (follow ops visits work flags).getD addr false = true) : Flow.Reachable ops addr := by
  fun_induction follow ops visits work flags with
  | case1 | case2 => exact hseen addr (.inl hflag)
  | case3 _ first work flags _ ih =>
      exact ih hsize (fun a ha => hseen a (ha.imp_right (List.mem_cons_of_mem _))) hflag
  | case4 _ first work flags _ _ _ ih =>
      exact ih hsize (fun a ha => hseen a (ha.imp_right (List.mem_cons_of_mem _))) hflag
  | case5 _ first work flags op ho _ ih =>
      have hfirst : Flow.Reachable ops first := hseen first (.inr List.mem_cons_self)
      refine ih (by rw [Array.size_setIfInBounds, hsize]) (fun a ha => ?_) hflag
      rcases ha with hknown | hwork
      · rcases (getD_setIfInBounds (hsize ▸ (Array.getElem?_eq_some_iff.mp ho).1)).mp hknown with rfl | hold
        · exact hfirst
        · exact hseen a (.inl hold)
      · rcases List.mem_append.mp hwork with hnext | hwork
        · exact hfirst.step ho hnext
        · exact hseen a (.inr (List.mem_cons_of_mem _ hwork))

/-- The search flags what some path gets to and nothing else. -/
theorem reached_iff {addr : Nat} (haddr : addr < ops.size) :
    (reached ops).getD addr false = true ↔ Flow.Reachable ops addr := by
  constructor
  · refine reachable_of_follow _ Array.size_replicate fun a ha => ?_
    rcases ha with hknown | hwork
    · rw [Array.getD_eq_getD_getElem?, Array.getElem?_replicate] at hknown
      split at hknown <;> cases hknown
    · obtain rfl := List.mem_singleton.mp hwork
      exact ⟨[], .start⟩
  · rintro ⟨passed, hpath⟩
    obtain ⟨hclosed, hstart⟩ := reached_spec ops
    induction hpath with
    | start => exact (hstart haddr).resolve_right List.not_mem_nil
    | step _ ho hnext ih =>
        have hflag := ih (Array.getElem?_eq_some_iff.mp ho).1
        exact (hclosed _ _ hflag ho _ hnext haddr).resolve_right List.not_mem_nil

end Prune

namespace Op
variable {ops : Array Op}

/-- Pruning leaves all paths as they are. -/
theorem reachable_prune {addr : Nat} (h : Flow.Reachable ops addr) : Flow.Reachable (prune ops).1 addr := by
  obtain ⟨passed, hpath⟩ := h
  induction hpath with
  | start => exact ⟨[], .start⟩
  | @step passed addr next op hpath ho hnext ih =>
      have hflag := (Prune.reached_iff (Array.getElem?_eq_some_iff.mp ho).1).mpr ⟨passed, hpath⟩
      exact ih.step ((getElem?_prune hflag).trans ho) hnext

theorem pruned_prune (ops : Array Op) : Pruned (prune ops).1 := by
  intro addr op ho hop
  have haddr : addr < ops.size := size_prune ops ▸ (Array.getElem?_eq_some_iff.mp ho).1
  refine reachable_prune ((Prune.reached_iff haddr).mp ?_)
  by_contra hflag
  rw [prune, Array.getElem?_mapIdx, Array.getElem?_eq_getElem haddr, Option.map_some, if_neg hflag] at ho
  exact hop (Option.some.inj ho).symm

/-- Pruning finds nothing to do if and only if every live operation is on a path. -/
theorem prune_eq_iff : prune ops = (ops, 0) ↔ Pruned ops := by
  constructor
  · intro h
    have hpruned := pruned_prune ops
    rwa [h] at hpruned
  · intro h
    refine prune_of_count_eq_zero (prune_count_eq_zero.mpr fun addr op ho hop => ?_)
    exact (Prune.reached_iff (Array.getElem?_eq_some_iff.mp ho).1).mpr (h addr op ho hop)

end Op

/-- Both levels that prune leave only live operations that are on paths. -/
theorem Optimize.pruned_passes {level : OptLevel} (hlevel : level = .o2 ∨ level = .o3) {ops : Array Op}
    (hsize : ops.size < 4294967296) : Op.Pruned (passes level ops).1 := by
  rcases hlevel with rfl | rfl
  · exact Op.pruned_prune (thread (fold (ops, {}))).1
  · exact Op.prune_eq_iff.mp (settled_passes hsize).prune

namespace Program
variable {program : Program}

/-- A program after the passes of a level, with the empty operations that they left. -/
def passed (level : OptLevel) (program : Program) : Program :=
  { program with ops := (Optimize.passes level program.ops).1 }

theorem ops_passed (level : OptLevel) (program : Program) :
    (program.passed level).ops = (Optimize.passes level program.ops).1 :=
  rfl

theorem Regular.passed (hreg : program.Regular) (level : OptLevel) : (program.passed level).Regular :=
  (Change.ops (Optimize.changes_passes hreg.size level)).regular hreg

/-- All that is left to do then is to drop them. -/
theorem optimize_eq_renumber {level : OptLevel} (h : level ≠ .none) :
    program.optimize level = ((program.passed level).renumber.1,
      { (Optimize.passes level program.ops).2 with removed := (program.passed level).renumber.2 }) :=
  if_neg h

theorem optimize_fst {level : OptLevel} (h : level ≠ .none) :
    (program.optimize level).1 = (program.passed level).renumber.1 := by
  rw [optimize_eq_renumber h]

/-- A path passes the live operations at their new addresses. -/
theorem reachable_renumber (hreg : program.Regular) {addr : Nat} (h : Flow.Reachable program.ops addr) :
    Flow.Reachable program.renumber.1.ops (Renumber.liveBefore program.ops addr) := by
  obtain ⟨passed, hpath⟩ := h
  induction hpath with
  | start =>
      rw [Renumber.liveBefore_zero]
      exact ⟨[], .start⟩
  | @step passed addr next op _ ho hnext ih =>
      by_cases hop : op = .nop
      · subst hop
        -- The empty operation is dropped, and the path stays where it is.
        rcases Op.mem_successors.mp hnext with ⟨target, ht, -⟩ | ⟨-, rfl⟩
        · cases ht
        · rwa [Renumber.liveBefore_succ ho, if_pos rfl]
      · refine ih.step (getElem?_renumber hreg.lines ho hop) (Op.mem_successors.mpr ?_)
        rw [Renumber.target?_op, Renumber.isTerminator_op]
        rcases Op.mem_successors.mp hnext with ⟨target, ht, rfl⟩ | ⟨hterm, rfl⟩
        · left
          exact ⟨Renumber.addr program.ops target, by rw [ht]; rfl, (Renumber.toNat_addr hreg.size target).symm⟩
        · right
          exact ⟨hterm, Renumber.liveBefore_succ_of_live ho hop⟩

/-- If every live operation was on a path, then every operation is when the empty ones are dropped. -/
theorem pruned_renumber (hreg : program.Regular) (h : Op.Pruned program.ops) :
    Op.Pruned program.renumber.1.ops := by
  intro i op' ho' _
  obtain ⟨addr, op, ho, hop, rfl, -⟩ := exists_of_getElem?_renumber hreg.lines ho'
  exact reachable_renumber hreg (h addr op ho hop)

theorem none_notMem_depths {depths : Flow.Depths} (hdepths : program.depths = .ok depths)
    (h : ∀ addr < program.ops.size, Flow.Reachable program.ops addr) : none ∉ depths := by
  have hsize := (depths_spec hdepths).2.2
  intro hnone
  obtain ⟨addr, haddr⟩ := Array.mem_iff_getElem?.mp hnone
  obtain ⟨passed, hpath⟩ := h addr (hsize ▸ (Array.getElem?_eq_some_iff.mp haddr).1)
  have hat := (Flow.at_search_iff (fun _ _ => .refl _) (depths_eq_ok_iff.mp hdepths)).mpr ⟨passed, hpath, rfl⟩
  rw [Flow.At, haddr] at hat
  cases hat

/-- If the check knows a depth at each operation, machine code has no undefined instruction. -/
theorem defined_of_compile {depths : Flow.Depths} (hdepths : program.depths = .ok depths) (h : none ∉ depths)
    {options : X64.CodeOptions} {machine : X64.MachineCode} (hcompile : program.compile options = .ok machine)
    {placed : X64.Placed X64.CodeLabel} (hplaced : placed ∈ machine.code) : placed.instr ≠ .undefined := by
  obtain ⟨depths', script, assembly, hdepths', hscript, hassemble, -, rfl⟩ := X64.compile_eq_ok hcompile
  obtain rfl : depths = depths' := Except.ok.inj (hdepths.symm.trans hdepths')
  obtain ⟨final, hrun, -, hcode⟩ := X64.CodeGeneration.assemble_eq_ok hassemble
  have hplaced : placed ∈ assembly.code := hplaced
  rw [hcode] at hplaced
  intro hundefined
  have hemit := X64.Assembler.mem_of_mem_assemble hrun hplaced
  rw [hundefined] at hemit
  exact (X64.CodeGeneration.proper_script hscript h).2 hemit

/-- The second and the third level leave no dead code: no operation is empty, and from the first operation some path
of control gets to each of them. So the check knows the depth of the stack at every operation, and none of them
becomes an undefined instruction. -/
theorem optimize_no_dead_code (program : Program) (level : OptLevel) (hlevel : level = .o2 ∨ level = .o3)
    (hsize : program.ops.size < 4294967296) (hv : program.verify = .ok ()) :
    let optimized := (program.optimize level).1
    .nop ∉ optimized.ops ∧
    (∀ addr < optimized.ops.size, ∃ passed, Flow.Path optimized.ops passed addr) ∧
    (∃ depths, optimized.depths = .ok depths ∧ depths.size = optimized.ops.size ∧
      ∀ addr < optimized.ops.size, ∃ depth, depths[addr]? = some (some depth)) ∧
    ∀ options machine, optimized.compile options = .ok machine →
      ∀ placed ∈ machine.code, placed.instr ≠ .undefined := by
  have hreg : program.Regular := ⟨hsize, (verify_iff.mp hv).1⟩
  have hverify := verify_of_changes hsize hv (changes_optimize hreg level)
  have hne : level ≠ .none := by rcases hlevel with rfl | rfl <;> decide
  have hreg' := hreg.passed level
  intro optimized
  have hshape : optimized = (program.passed level).renumber.1 := optimize_fst hne
  have hnop : ∀ addr : Nat, optimized.ops[addr]? ≠ some .nop := hshape ▸ renumber_ne_nop hreg'.lines
  have hpruned : Op.Pruned optimized.ops :=
    hshape ▸ pruned_renumber hreg' (Optimize.pruned_passes hlevel hsize)
  have hpaths : ∀ addr < optimized.ops.size, Flow.Reachable optimized.ops addr := by
    intro addr haddr
    have ho := Array.getElem?_eq_getElem haddr
    exact hpruned addr _ ho fun hop => hnop addr (by rw [ho, hop])
  obtain ⟨-, depths, hdepths⟩ := verify_spec hverify
  have hnone := none_notMem_depths hdepths hpaths
  refine ⟨fun hmem => ?_, hpaths, ⟨depths, hdepths, (depths_spec hdepths).2.2, fun addr haddr => ?_⟩, ?_⟩
  · obtain ⟨addr, haddr⟩ := Array.mem_iff_getElem?.mp hmem
    exact hnop addr haddr
  · have hget := Array.getElem?_eq_getElem ((depths_spec hdepths).2.2 ▸ haddr)
    obtain ⟨depth, hdepth⟩ := Option.ne_none_iff_exists'.mp fun heq => hnone (heq ▸ Array.mem_of_getElem? hget)
    exact ⟨depth, by rw [hget, hdepth]⟩
  · intro options machine hcompile placed hplaced
    exact defined_of_compile hdepths hnone hcompile hplaced

/-- An empty operation at the start, operations behind a jump, a constant condition and transfers to jumps. What is left
is a loop and the exit. -/
theorem optimize_no_dead_code_loop :
    let program : Program :=
      { ops := #[.nop, .jump 7, .push 9, .exit, .load 0, .jumpIf 9, .jump 10, .push 1, .jumpIf 4, .jump 4,
          .push 0, .exit]
        lines := #[1, 1, 2, 2, 3, 3, 4, 5, 5, 6, 7, 7]
        slots := #[⟨"i", .int⟩] }
    let optimized := (program.optimize .o3).1
    program.ops.size < 4294967296 ∧ program.verify = .ok () ∧
    optimized.ops = #[.load 0, .jumpIf 0, .push 0, .exit] ∧ .nop ∉ optimized.ops ∧
    (∀ addr < 4, ∃ passed, Flow.Path optimized.ops passed addr) ∧
    (∃ depths, optimized.depths = .ok depths ∧ depths.size = 4 ∧
      ∀ addr < 4, ∃ depth, depths[addr]? = some (some depth)) ∧
    ∃ machine, optimized.compile {} = .ok machine ∧ ∀ placed ∈ machine.code, placed.instr ≠ .undefined := by
  intro program optimized
  have hsize : program.ops.size < 4294967296 := by decide
  have hv : program.verify = .ok () := by decide +kernel
  have hops : optimized.ops = #[.load 0, .jumpIf 0, .push 0, .exit] := by decide +kernel
  have hsize' : optimized.ops.size = 4 := by rw [hops]; rfl
  obtain ⟨hnop, hpaths, hdepths, hdefined⟩ := optimize_no_dead_code program .o3 (.inr rfl) hsize hv
  have hcompile : (optimized.compile {}).isOk = true := by decide +kernel
  cases hm : optimized.compile {} with
  | error fault =>
      rw [hm] at hcompile
      cases hcompile
  | ok machine =>
      rw [hsize'] at hpaths hdepths
      exact ⟨hsize, hv, hops, hnop, hpaths, hdepths, machine, rfl, hdefined {} machine hm⟩

end Program

end GotoLang
