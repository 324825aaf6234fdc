import GotoLang.Proofs.Optimize.DeadCode

/-!
# Optimizing again

The last level goes on until no pass finds anything to change. Then it drops the empty operations, and the question is
whether the passes still find nothing in what is left.

Each pass goes by the next live operation of an address, and dropping empty operations keeps it. So a window
that can be folded, a jump to the next operation or an operation that no path gets to would have been found before.
Threading is the exception. It tells a jump to itself by its address: a jump back over empty operations to itself is a
circle to it, which leads nowhere, but is a jump to itself once these are dropped, where chains come to rest.
Transfers that get there by another jump are then shortened when the program is optimized again. This is the only
change there is left to make.
-/
namespace GotoLang

namespace Op
variable {ops : Array Op}

/-- Into each window that could be folded goes some transfer. -/
def Folded (ops : Array Op) : Prop :=
  ∀ (first last : Nat) (op : Op), Fold.Window ops first last op →
    ∃ (addr : Nat) (transfer : Op) (target : Addr), ops[addr]? = some transfer ∧
      transfer.target? = some target ∧ first < target.toNat ∧ target.toNat ≤ last

theorem foldConstants_eq_iff : foldConstants ops = (ops, 0) ↔ Folded ops := by
  constructor
  · intro h first last op hw
    have hround : (Jumps.sweep (Fold.at? (targets ops)) ops).2 = 0 := by
      have hagain := round_foldConstants ops
      rw [h] at hagain
      exact congrArg Prod.snd hagain
    obtain ⟨hlt, hlast⟩ := hw.lt
    by_contra hno
    have hsealed : Fold.isSealed (targets ops) first last = true :=
      (Fold.isSealed_targets hlast).mpr fun addr transfer target ho ht hinside =>
        hno ⟨addr, transfer, target, ho, ht, hinside⟩
    obtain ⟨ops', hat⟩ := Fold.exists_at? hw hsealed
    rw [(Jumps.sweep_eq_zero hround).2 first (hlt.trans hlast)] at hat
    cases hat
  · intro h
    have hround : Fold.round ops = (ops, 0) := by
      refine Jumps.sweep_of_none fun first _ => ?_
      by_contra hne
      obtain ⟨ops', hat⟩ := Option.ne_none_iff_exists'.mp hne
      obtain ⟨last, op, hsealed, hw, -⟩ := Fold.at?_eq_some hat
      obtain ⟨addr, transfer, target, ho, ht, hinside⟩ := h first last op hw
      exact (Fold.isSealed_targets hw.lt.2).mp hsealed addr transfer target ho ht hinside
    unfold foldConstants Fold.rounds
    simp [hround]

/-- No jump goes to the next live operation. -/
def Bypassed (ops : Array Op) : Prop :=
  ∀ (addr next : Nat) (target : Addr), ops[addr]? = some (.jump target) →
    nextLive? ops (addr + 1) = some next → nextLive? ops target.toNat ≠ some next

theorem bypassJumps_eq_iff : bypassJumps ops = (ops, 0) ↔ Bypassed ops := by
  constructor
  · intro h addr next target ho hn ht
    have hnone := (Jumps.sweep_eq_zero (congrArg Prod.snd h)).2 addr (Array.getElem?_eq_some_iff.mp ho).1
    rw [Jumps.bypassAt?_eq_some ho hn ht] at hnone
    cases hnone
  · intro h
    refine Jumps.sweep_of_none fun addr _ => ?_
    by_contra hne
    obtain ⟨ops', hat⟩ := Option.ne_none_iff_exists'.mp hne
    obtain ⟨other, target, next, ho, hn, ht, -⟩ := Jumps.bypass_of_bypassAt? hat
    exact h other next target ho hn ht

theorem settled_iff (hsize : ops.size < 4294967296) :
    Settled ops ↔ Folded ops ∧ Jumps.Direct ops ∧ Pruned ops ∧ Bypassed ops := by
  constructor
  · intro h
    have hdirect := (direct_of_threadJumps hsize (congrArg Prod.snd h.thread)).2
    exact ⟨foldConstants_eq_iff.mp h.fold, hdirect, prune_eq_iff.mp h.prune, bypassJumps_eq_iff.mp h.bypass⟩
  · rintro ⟨hfolded, hdirect, hpruned, hbypassed⟩
    exact ⟨foldConstants_eq_iff.mpr hfolded, threadJumps_of_direct hsize hdirect, prune_eq_iff.mpr hpruned,
      bypassJumps_eq_iff.mpr hbypassed⟩

end Op

theorem OptStats.changed_removed (stats : OptStats) (removed : Nat) :
    ({ stats with removed } : OptStats).changed = stats.changed :=
  rfl

/-- A jump that goes back over empty operations to itself. -/
def Jumps.Circles (ops : Array Op) (addr : Nat) : Prop :=
  ∃ target : Addr, ops[addr]? = some (.jump target) ∧ Op.nextLive? ops target.toNat = some addr ∧
    target.toNat ≠ addr

/-- A jump that comes to stand at an address and to go there went to itself before. -/
def Renumber.KeepsLoop (ops : Array Op) (last : Nat) : Prop :=
  ∀ (live : Nat) (target : Addr), ops[live]? = some (.jump target) → liveBefore ops live = last →
    liveBefore ops target.toNat = last → target.toNat = live

namespace Program
open Renumber
variable {program : Program}

theorem eq_of_nops_renumber (hreg : program.Regular) {first last : Nat}
    (h : Op.Nops program.renumber.1.ops first last) (hle : first ≤ last) : last = first := by
  by_contra hne
  exact renumber_ne_nop hreg.lines first (h first le_rfl (by omega))

/-- The operation behind a live one is the next live one. -/
theorem following_renumber (hreg : program.Regular) {addr : Nat} {op op' : Op} (ho : program.ops[addr]? = some op)
    (hop : op ≠ .nop) (h : program.renumber.1.ops[liveBefore program.ops addr + 1]? = some op') :
    ∃ (next : Nat) (following : Op), Op.Nops program.ops (addr + 1) next ∧ addr < next ∧
      program.ops[next]? = some following ∧ following ≠ .nop ∧
      liveBefore program.ops next = liveBefore program.ops addr + 1 ∧
      op' = Renumber.op program.ops following := by
  rw [← liveBefore_succ_of_live ho hop] at h ⊢
  obtain ⟨next, following, hnext, hfollowing, hlive, hcount, hnew⟩ := nextLive_of_getElem?_renumber hreg.lines h
  obtain ⟨hle, -, -, hnops⟩ := Op.nextLive?_eq_some.mp hnext
  exact ⟨next, following, hnops, hle, hfollowing, hlive, hcount, hnew⟩

/-- A window was one before. -/
theorem window_of_renumber (hreg : program.Regular) {i j : Nat} {result : Op}
    (h : Fold.Window program.renumber.1.ops i j result) :
    ∃ (first last : Nat) (op : Op), Fold.Window program.ops first last op ∧
      liveBefore program.ops first = i ∧ liveBefore program.ops last = j := by
  obtain ⟨a, hfirst⟩ := h.first
  obtain ⟨first, op, ho, -, rfl, hnew⟩ := exists_of_getElem?_renumber hreg.lines hfirst
  obtain rfl := eq_of_op_eq hnew rfl
  cases h with
  | unary _ hnops hl hlt =>
      obtain rfl := eq_of_nops_renumber hreg hnops hlt
      obtain ⟨last, op, hnops', hlt', ho', -, hcount, hnew'⟩ := following_renumber hreg ho (by simp) hl
      obtain rfl := eq_of_op_eq hnew' rfl
      exact ⟨first, last, _, .unary ho hnops' ho' hlt', rfl, hcount⟩
  | jumpIf _ hnops hl hlt =>
      obtain rfl := eq_of_nops_renumber hreg hnops hlt
      obtain ⟨last, op, hnops', hlt', ho', -, hcount, hnew'⟩ := following_renumber hreg ho (by simp) hl
      cases op with
      | jumpIf target => exact ⟨first, last, _, .jumpIf ho hnops' ho' hlt', rfl, hcount⟩
      | _ => cases hnew'
  | binary h₁ hnops hmid hnops₂ hl hv hlt hlt₂ =>
      obtain rfl := eq_of_nops_renumber hreg hnops hlt
      obtain rfl := eq_of_nops_renumber hreg hnops₂ hlt₂
      obtain ⟨mid, op, hnops', hlt', ho', -, hcount, hnew'⟩ := following_renumber hreg ho (by simp) hmid
      obtain rfl := eq_of_op_eq hnew' rfl
      rw [← hcount] at hl
      obtain ⟨last, op, hnops'', hlt'', ho'', -, hcount', hnew''⟩ := following_renumber hreg ho' (by simp) hl
      obtain rfl := eq_of_op_eq hnew'' rfl
      rw [hfirst] at h₁
      cases h₁
      exact ⟨first, last, _, .binary ho hnops' ho' hnops'' ho'' hv hlt' hlt'', rfl, by omega⟩

theorem folded_renumber (hreg : program.Regular) (h : Op.Folded program.ops) :
    Op.Folded program.renumber.1.ops := by
  intro i j result hw'
  obtain ⟨first, last, op, hw, rfl, rfl⟩ := window_of_renumber hreg hw'
  obtain ⟨addr, transfer, target, ho, ht, hfirst, hlast⟩ := h first last op hw
  have hlive : transfer ≠ .nop := by
    rintro rfl
    cases ht
  refine ⟨_, _, Renumber.addr program.ops target, getElem?_renumber hreg.lines ho hlive, ?_, ?_⟩
  · rw [Renumber.target?_op, ht]
    rfl
  · rw [toNat_addr hreg.size]
    obtain ⟨a, hpush⟩ := hw.first
    have hafter := liveBefore_succ_of_live hpush (by simp)
    have hinside : liveBefore program.ops (first + 1) ≤ liveBefore program.ops target.toNat :=
      liveBefore_mono hfirst
    exact ⟨by omega, liveBefore_mono hlast⟩

theorem bypassed_renumber (hreg : program.Regular) (h : Op.Bypassed program.ops) :
    Op.Bypassed program.renumber.1.ops := by
  intro i next' target' ho' hn' ht'
  obtain ⟨addr, op, ho, hop, rfl, hnew⟩ := exists_of_getElem?_renumber hreg.lines ho'
  cases op with
  | jump target =>
      cases hnew
      rw [← liveBefore_succ_of_live ho hop, nextLive?_renumber hreg.lines] at hn'
      rw [toNat_addr hreg.size, nextLive?_renumber hreg.lines] at ht'
      obtain ⟨next, hn, rfl⟩ := Option.map_eq_some_iff.mp hn'
      obtain ⟨live, ht, heq⟩ := Option.map_eq_some_iff.mp ht'
      have hsame : live = next := eq_of_nextLive? ht hn heq
      exact h addr next target ho hn (hsame ▸ ht)
  | _ => cases hnew

/-- A chain that comes to rest did so before, unless its end goes to itself only since empty operations were dropped. -/
theorem restsAt_of_renumber (hreg : program.Regular) {addr last' : Nat}
    (h : Jumps.RestsAt program.renumber.1.ops (liveBefore program.ops addr) last')
    (hself : KeepsLoop program.ops last') :
    ∃ last, Jumps.RestsAt program.ops addr last ∧ liveBefore program.ops last = last' := by
  obtain ⟨steps, hends⟩ := h
  generalize hstart : liveBefore program.ops addr = start at hends
  generalize hresult : some last' = result at hends
  induction hends generalizing addr with
  | stop hs =>
      subst hstart hresult
      obtain ⟨rfl, op', ho', -, hjump⟩ := Jumps.walk_eq_stop hs
      obtain ⟨live, op, hl, ho, hop, hcount, rfl⟩ := nextLive_of_getElem?_renumber hreg.lines ho'
      have hstop : Jumps.walk program.ops live = .stop (some live) := by
        refine Jumps.walk_of_live ho hop ?_
        rintro target rfl
        exact hself live target ho hcount (toNat_addr hreg.size target ▸ hjump _ rfl)
      exact ⟨live, Ends.before (Jumps.walk_nextLive hl) (Ends.stop hstop), hcount⟩
  | next hm _ ih =>
      subst hstart
      rcases Jumps.walk_eq_next hm with ⟨hnop, -⟩ | ⟨target', ho', hne, rfl⟩
      · exact absurd hnop (renumber_ne_nop hreg.lines _)
      · obtain ⟨live, op, hl, ho, hop, hcount, hnew⟩ := nextLive_of_getElem?_renumber hreg.lines ho'
        cases op with
        | jump target =>
            cases hnew
            rw [toNat_addr hreg.size] at hne
            have hmove : Moves (Jumps.walk program.ops) live target.toNat :=
              Jumps.walk_of_jump ho fun heq => hne (by rw [heq, hcount])
            obtain ⟨last, hrest, hlast⟩ := ih (toNat_addr hreg.size target).symm hresult
            exact ⟨last, Ends.before ((Jumps.walk_nextLive hl).tail hmove) hrest, hlast⟩
        | _ => cases hnew

/-- If all transfers were direct, then one whose chain now comes to rest as it did before goes right there. -/
theorem target_of_direct (hreg : program.Regular) (h : Jumps.Direct program.ops) {i last' : Nat} {op' : Op}
    {target' : Addr} (ho' : program.renumber.1.ops[i]? = some op') (ht' : op'.target? = some target')
    (hrest : Jumps.RestsAt program.renumber.1.ops target'.toNat last')
    (hself : KeepsLoop program.ops last') : target'.toNat = last' := by
  obtain ⟨addr, op, ho, -, rfl, rfl⟩ := exists_of_getElem?_renumber hreg.lines ho'
  rw [Renumber.target?_op] at ht'
  obtain ⟨target, ht, rfl⟩ := Option.map_eq_some_iff.mp ht'
  rw [toNat_addr hreg.size] at hrest ⊢
  obtain ⟨last, hold, rfl⟩ := restsAt_of_renumber hreg hrest hself
  obtain ⟨hle, -, -, hnops⟩ := Op.nextLive?_eq_some.mp (h addr op target last ho ht hold)
  exact liveBefore_of_nops hnops hle

/-- Direct transfers stay direct, apart from those whose chain ends at a jump to itself. -/
theorem direct_renumber_iff (hreg : program.Regular) (h : Jumps.Direct program.ops) :
    Jumps.Direct program.renumber.1.ops ↔
      ∀ (addr : Nat) (op : Op) (target loop : Addr), program.renumber.1.ops[addr]? = some op →
        op.target? = some target → program.renumber.1.ops[loop.toNat]? = some (.jump loop) →
        Jumps.RestsAt program.renumber.1.ops target.toNat loop.toNat → target = loop := by
  constructor
  · intro hdirect addr op target loop ho ht _ hrest
    obtain ⟨hle, -, -, hnops⟩ := Op.nextLive?_eq_some.mp (hdirect addr op target loop.toNat ho ht hrest)
    exact UInt32.toNat_inj.mp (eq_of_nops_renumber hreg hnops hle).symm
  · intro hloops addr op target last ho ht hrest
    have hgoes : target.toNat = last := by
      by_cases hend : ∃ loop : Addr, program.renumber.1.ops[last]? = some (.jump loop)
      · obtain ⟨loop, hloop⟩ := hend
        obtain ⟨op', ho', -, hself⟩ := hrest.exists_op
        obtain rfl : op' = .jump loop := Option.some.inj (ho'.symm.trans hloop)
        obtain rfl := hself loop rfl
        rw [hloops addr op target loop ho ht hloop hrest]
      · refine target_of_direct hreg h ho ht hrest fun live target' hjump hlive _ => ?_
        exact absurd ⟨_, hlive ▸ getElem?_renumber hreg.lines hjump (by simp)⟩ hend
    rw [hgoes]
    exact hrest.nextLive_self

/-- Direct transfers stay direct if no jump goes back over empty operations to itself. -/
theorem direct_renumber (hreg : program.Regular) (h : Jumps.Direct program.ops)
    (hcircles : ∀ addr, ¬ Jumps.Circles program.ops addr) : Jumps.Direct program.renumber.1.ops := by
  intro addr op target last ho ht hrest
  have hgoes : target.toNat = last := by
    refine target_of_direct hreg h ho ht hrest fun live target' hjump hlive htarget => ?_
    by_contra hne
    have hnext := nextLive?_of_liveBefore_eq hjump (by simp) (htarget.trans hlive.symm)
    exact hcircles live ⟨target', hjump, hnext, hne⟩
  rw [hgoes]
  exact hrest.nextLive_self

/-- Where there is nothing empty to drop, and all targets and labels are inside or at the end, all stays as it is. -/
theorem renumber_of_no_nop (hreg : program.Regular) (hnop : ∀ addr : Nat, program.ops[addr]? ≠ some .nop)
    (htargets : ∀ op ∈ program.ops, ∀ target, op.target? = some target → target.toNat ≤ program.ops.size)
    (hmarks : ∀ mark ∈ program.marks, mark.addr.toNat ≤ program.ops.size) : program.renumber = (program, 0) := by
  have haddr : ∀ old : Addr, old.toNat ≤ program.ops.size → Renumber.addr program.ops old = old := by
    intro old hle
    rw [← UInt32.toNat_inj, toNat_addr hreg.size, liveBefore_of_no_nop hnop hle]
  have hlive : ∀ op ∈ program.ops, op ≠ .nop := by
    rintro op hmem rfl
    obtain ⟨addr, ho⟩ := Array.mem_iff_getElem?.mp hmem
    exact hnop addr ho
  have hops : program.renumber.1.ops = program.ops := by
    rw [← Array.toList_inj, toList_ops_renumber hreg.lines, List.filter_eq_self.mpr, List.map_congr_left,
      List.map_id]
    · intro op hmem
      exact op_of_inside haddr (htargets op (Array.mem_toList_iff.mp hmem))
    · intro op hmem
      simpa using hlive op (Array.mem_toList_iff.mp hmem)
  have hkept : (program.ops.zip program.lines).filter (fun entry => entry.1 ≠ .nop) =
      program.ops.zip program.lines := by
    refine Array.filter_eq_self.mpr fun entry hentry => ?_
    simpa using hlive entry.1 (Array.of_mem_zip hentry).1
  have hlines : program.renumber.1.lines = program.lines :=
    calc program.renumber.1.lines
      _ = ((program.ops.zip program.lines).filter fun entry => entry.1 ≠ .nop).map Prod.snd := rfl
      _ = program.lines := by rw [hkept, Array.map_snd_zip hreg.lines.le]
  have hmarks' : program.renumber.1.marks = program.marks := by
    refine (Array.map_congr_left fun mark hmark => ?_).trans (Array.map_id' program.marks)
    rw [haddr mark.addr (hmarks mark hmark)]
  refine Prod.ext ?_ ?_
  · show Program.mk program.renumber.1.ops program.renumber.1.lines program.slots program.renumber.1.marks = program
    rw [hops, hlines, hmarks']
  · show program.ops.size - liveBefore program.ops program.ops.size = 0
    rw [liveBefore_of_no_nop hnop le_rfl, Nat.sub_self]

/-- Empty operations are dropped at once. -/
theorem renumber_renumber (hreg : program.Regular) : program.renumber.1.renumber = (program.renumber.1, 0) := by
  have hinside : ∀ old : Addr, (Renumber.addr program.ops old).toNat ≤ program.renumber.1.ops.size := by
    intro old
    rw [toNat_addr hreg.size, size_ops_renumber hreg.lines]
    exact liveBefore_le_size program.ops old.toNat
  refine renumber_of_no_nop ((Change.renumber program).regular hreg) (renumber_ne_nop hreg.lines) ?_ ?_
  · intro op' hmem target' ht'
    obtain ⟨i, ho'⟩ := Array.mem_iff_getElem?.mp hmem
    obtain ⟨addr, op, -, -, -, rfl⟩ := exists_of_getElem?_renumber hreg.lines ho'
    rw [Renumber.target?_op] at ht'
    obtain ⟨target, -, rfl⟩ := Option.map_eq_some_iff.mp ht'
    exact hinside target
  · intro mark' hmem
    obtain ⟨mark, -, rfl⟩ := Array.mem_map.mp hmem
    exact hinside mark.addr

/-- The last level leaves a program as it is exactly if no pass finds anything and there is nothing empty to drop. -/
theorem optimize_eq_self_iff (hreg : program.Regular) (hrenumber : program.renumber = (program, 0)) :
    program.optimize .o3 = (program, {}) ↔ Op.Settled program.ops := by
  have hne : OptLevel.o3 ≠ .none := by decide
  constructor
  · intro h
    rw [optimize_eq_renumber hne, Prod.mk.injEq] at h
    have hchanged := congrArg OptStats.changed h.2
    rw [OptStats.changed_removed] at hchanged
    exact (Optimize.settled_iff_passes hreg.size).mpr hchanged
  · intro h
    have hpasses := Optimize.passes_of_settled h
    have hpassed : program.passed .o3 = program := by
      rw [passed, hpasses]
    rw [optimize_eq_renumber hne, hpassed, hpasses, hrenumber]

/-- In a settled program without its empty operations, no pass but threading finds anything. -/
theorem settled_renumber_iff (hreg : program.Regular) (h : Op.Settled program.ops) :
    (Op.Folded program.renumber.1.ops ∧ Op.Pruned program.renumber.1.ops ∧ Op.Bypassed program.renumber.1.ops) ∧
      (Op.Settled program.renumber.1.ops ↔ Jumps.Direct program.renumber.1.ops) := by
  have hreg' := (Change.renumber program).regular hreg
  obtain ⟨hfolded, -, hpruned, hbypassed⟩ := (Op.settled_iff hreg.size).mp h
  have hfolded' := folded_renumber hreg hfolded
  have hpruned' := pruned_renumber hreg hpruned
  have hbypassed' := bypassed_renumber hreg hbypassed
  rw [Op.settled_iff hreg'.size]
  exact ⟨⟨hfolded', hpruned', hbypassed'⟩, fun h => h.2.1, fun h => ⟨hfolded', h, hpruned', hbypassed'⟩⟩

/-- When a program is optimized again at the last level, folding, pruning and the dropping of jumps and of empty
operations find nothing to do. Nothing at all changes exactly if every transfer whose chain ends at a jump to itself
goes right to that jump. This is so if no jump, before empty operations were dropped, went back over them to itself. -/
theorem optimize_again (program : Program) (hsize : program.ops.size < 4294967296)
    (hlines : program.lines.size = program.ops.size) :
    let optimized := (program.optimize .o3).1
    (Op.foldConstants optimized.ops = (optimized.ops, 0) ∧ Op.prune optimized.ops = (optimized.ops, 0) ∧
      Op.bypassJumps optimized.ops = (optimized.ops, 0) ∧ optimized.renumber = (optimized, 0)) ∧
    (optimized.optimize .o3 = (optimized, {}) ↔
      ∀ (addr : Nat) (op : Op) (target loop : Addr), optimized.ops[addr]? = some op → op.target? = some target →
        optimized.ops[loop.toNat]? = some (.jump loop) →
        Jumps.RestsAt optimized.ops target.toNat loop.toNat → target = loop) ∧
    ((∀ addr, ¬ Jumps.Circles (Optimize.passes .o3 program.ops).1 addr) →
      optimized.optimize .o3 = (optimized, {})) := by
  have hreg : (program.passed .o3).Regular := Regular.passed ⟨hsize, hlines⟩ .o3
  have hsettled : Op.Settled (program.passed .o3).ops := by
    rw [ops_passed]
    exact Optimize.settled_passes hsize
  have hdirect := ((Op.settled_iff hreg.size).mp hsettled).2.1
  obtain ⟨⟨hfolded, hpruned, hbypassed⟩, hsettled'⟩ := settled_renumber_iff hreg hsettled
  have hrenumber := renumber_renumber hreg
  have hagain := optimize_eq_self_iff ((Change.renumber _).regular hreg) hrenumber
  intro optimized
  have hshape : optimized = (program.passed .o3).renumber.1 := optimize_fst (by decide)
  clear_value optimized
  subst hshape
  refine ⟨⟨Op.foldConstants_eq_iff.mpr hfolded, Op.prune_eq_iff.mpr hpruned,
    Op.bypassJumps_eq_iff.mpr hbypassed, hrenumber⟩, ?_, fun hcircles => ?_⟩
  · rw [hagain, hsettled', direct_renumber_iff hreg hdirect]
  · rw [← ops_passed] at hcircles
    exact hagain.mpr (hsettled'.mpr (direct_renumber hreg hdirect hcircles))

/-- A condition that leads by way of a jump to a jump to itself. -/
theorem optimize_again_loop :
    let program : Program :=
      { ops := #[.load 0, .jumpIf 5, .nop, .push 0, .exit, .jump 6, .jump 6]
        lines := #[1, 1, 2, 2, 2, 3, 4]
        slots := #[⟨"b", .bool⟩] }
    let optimized := (program.optimize .o3).1
    program.ops.size < 4294967296 ∧ program.lines.size = program.ops.size ∧
      optimized.ops = #[.load 0, .jumpIf 4, .push 0, .exit, .jump 4] ∧
      optimized.optimize .o3 = (optimized, {}) := by
  intro program optimized
  have hsize : program.ops.size < 4294967296 := by decide
  have hlines : program.lines.size = program.ops.size := rfl
  have hops : optimized.ops = #[.load 0, .jumpIf 4, .push 0, .exit, .jump 4] := by decide +kernel
  obtain ⟨-, hiff, -⟩ := optimize_again program hsize hlines
  refine ⟨hsize, hlines, hops, hiff.mpr fun addr op target loop ho ht hloop _ => ?_⟩
  have hop : op ∈ optimized.ops := Array.mem_of_getElem? ho
  have hjump : .jump loop ∈ optimized.ops := Array.mem_of_getElem? hloop
  simp only [hops, List.mem_toArray, List.mem_cons, List.not_mem_nil, or_false, reduceCtorEq, false_or,
    Op.jump.injEq] at hop hjump
  rcases hop with rfl | rfl | rfl | rfl | rfl <;> cases ht
  · exact hjump.symm
  · exact hjump.symm

/-- A jump that goes back over a condition to itself. The condition is folded and dropped, and it takes another run
until the first jump goes where the chain now ends, which leaves nothing but the loop. -/
theorem optimize_again_shortens :
    let program : Program :=
      { ops := #[.jump 4, .push 0, .jumpIf 4, .jump 1, .jump 1, .push 0, .exit]
        lines := #[1, 3, 3, 4, 6, 7, 7]
        marks := #[⟨"a", 1⟩, ⟨"b", 4⟩] }
    let optimized := (program.optimize .o3).1
    program.ops.size < 4294967296 ∧ program.lines.size = program.ops.size ∧
      optimized.ops = #[.jump 2, .jump 1, .jump 1] ∧ (optimized.optimize .o3).1.ops = #[.jump 0] ∧
      (optimized.optimize .o3).2 = { threaded := 1, unreachable := 1, jumpsRemoved := 1, removed := 2 } := by
  decide +kernel

end Program

end GotoLang
