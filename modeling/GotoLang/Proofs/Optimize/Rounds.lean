import GotoLang.Proofs.Optimize.Chains
import GotoLang.Proofs.Optimize.Descent

/-!
# The rounds come to an end

Folding, pruning and dropping jumps leave fewer live operations whenever they change something. Threading does
not. But it brings all transfers to where their chains end, so that it finds nothing to do in a round that follows one
in which nothing else happened. Hence of two rounds in a row that change something one leaves fewer live operations, and
there are at most twice as many rounds as operations, and two.

The loops are stated here without the bounds of the functions that compute them, as executions whose steps are the turns
of a loop. The bounds are shown to be large enough.
-/
namespace GotoLang

/-- A pass that counts nothing changes nothing, and one that counts something leaves fewer live operations. -/
def Op.Shrinks (pass : Array Op → Array Op × Nat) : Prop :=
  ∀ ops, pass ops = (ops, 0) ∨ 0 < (pass ops).2 ∧ liveCount (pass ops).1 < liveCount ops

section
variable {pass : Array Op → Array Op × Nat} {ops : Array Op} {result : Array Op × Nat}

theorem Op.Shrinks.same (h : Shrinks pass) (hresult : pass ops = result) (hzero : result.2 = 0) :
    result = (ops, 0) := by
  rcases hresult ▸ h ops with hsame | ⟨hpos, -⟩
  · exact hsame
  · omega

theorem Op.Shrinks.lt (h : Shrinks pass) (hresult : pass ops = result) (hcount : result.2 ≠ 0) :
    liveCount result.1 < liveCount ops := by
  rcases hresult ▸ h ops with hsame | ⟨-, hlt⟩
  · exact absurd (congrArg Prod.snd hsame) hcount
  · exact hlt

theorem Op.Shrinks.le (h : Shrinks pass) (hresult : pass ops = result) :
    liveCount result.1 ≤ liveCount ops := by
  rcases hresult ▸ h ops with hsame | ⟨-, hlt⟩
  · rw [hsame]
  · exact hlt.le

end

theorem Jumps.shrinks_sweep {change? : Array Op → Nat → Option (Array Op)}
    (h : ∀ {ops ops' addr}, change? ops addr = some ops' → Op.liveCount ops' < Op.liveCount ops) :
    Op.Shrinks (sweep change?) := by
  intro ops
  have hcount := @sweep_positions change? (fun _ now count => Op.liveCount now + count ≤ Op.liveCount ops) ops
    le_rfl (fun _ hle hc => by have := h hc; omega) fun _ hle _ => hle
  by_cases hzero : (sweep change? ops).2 = 0
  · exact .inl (sweep_eq_zero hzero).1
  · exact .inr ⟨by omega, by omega⟩

theorem Op.shrinks_bypassJumps : Shrinks bypassJumps := by
  refine Jumps.shrinks_sweep fun {ops ops' addr} hc => ?_
  obtain ⟨addr, target, next, ho, -, -, rfl⟩ := Jumps.bypass_of_bypassAt? hc
  have haddr := (Array.getElem?_eq_some_iff.mp ho).1
  exact (descends_of_set ho (.empty _)).emptied.liveCount_lt ho (by simp)
    (Array.getElem?_setIfInBounds_self_of_lt haddr)

theorem Op.shrinks_prune : Shrinks prune := by
  intro ops
  by_cases hzero : (prune ops).2 = 0
  · exact .inl (prune_of_count_eq_zero hzero)
  · refine .inr ⟨by omega, ?_⟩
    simp only [prune_count_eq_zero, not_forall] at hzero
    obtain ⟨addr, op, ho, hop, hflag⟩ := hzero
    refine (descends_prune ops).emptied.liveCount_lt ho hop ?_
    rw [prune, Array.getElem?_mapIdx, ho, Option.map_some, if_neg hflag]

theorem Op.liveCount_threadJumps {ops : Array Op} (hsize : ops.size < 4294967296) :
    liveCount (threadJumps ops).1 ≤ liveCount ops :=
  (descends_of_changes (changes_threadJumps hsize)).emptied.liveCount_le

namespace Fold

theorem Window.liveCount_lt {ops ops' : Array Op} {first last : Nat} {op : Op}
    (hw : Window ops first last op) (hc : Collapsed ops ops' first last op) :
    Op.liveCount ops' < Op.liveCount ops := by
  obtain ⟨hlt, -⟩ := hw.lt
  obtain ⟨consumer, hlast, hlive⟩ := hw.last
  exact (Op.descends_of_window hw hc).emptied.liveCount_lt hlast hlive (hc.inside last hlt (by omega))

theorem shrinks_round : Op.Shrinks round := by
  intro ops
  refine Jumps.shrinks_sweep (fun {ops₁ ops₂ addr} hat => ?_) ops
  obtain ⟨last, op, -, hw, hc⟩ := at?_eq_some hat
  exact hw.liveCount_lt hc

/-- One turn of the loop: a round, after which the loop stops if nothing was folded. -/
def turn (state : Array Op × Nat) : Transition (Array Op × Nat) (Array Op × Nat) :=
  if (round state.1).2 = 0 then .stop ((round state.1).1, state.2)
  else .next ((round state.1).1, state.2 + (round state.1).2)

theorem turn_eq_stop {state result : Array Op × Nat} (h : turn state = .stop result) :
    round state.1 = (state.1, 0) ∧ result = state := by
  unfold turn at h
  split_ifs at h with hzero
  cases h
  rcases shrinks_round state.1 with hsame | ⟨hpos, -⟩
  · rw [hsame]
    exact ⟨rfl, rfl⟩
  · omega

theorem turn_eq_next {state state' : Array Op × Nat} (h : Moves turn state state') :
    state' = ((round state.1).1, state.2 + (round state.1).2) ∧ 0 < (round state.1).2 ∧
      Op.liveCount state'.1 < Op.liveCount state.1 := by
  unfold Moves turn at h
  split_ifs at h with hzero
  cases h
  rcases shrinks_round state.1 with hsame | ⟨hpos, hlt⟩
  · exact absurd (congrArg Prod.snd hsame) hzero
  · exact ⟨rfl, hpos, hlt⟩

/-- With a bound that is not below the number of turns, the rounds are those of the loop. -/
theorem rounds_of_endsIn {state result : Array Op × Nat} {turns bound : Nat} (h : EndsIn turn turns state result)
    (hle : turns ≤ bound) : rounds bound state.1 state.2 = result := by
  induction bound generalizing state turns with
  | zero => cases h <;> omega
  | succ bound ih =>
      unfold rounds
      cases h with
      | stop hs =>
          obtain ⟨hround, rfl⟩ := turn_eq_stop hs
          rw [hround]
          rfl
      | next hm hrest =>
          obtain ⟨rfl, hpos, -⟩ := turn_eq_next hm
          have hih := ih hrest (by omega)
          split
          · next hr =>
              rw [hr] at hpos
              exact absurd hpos (Nat.lt_irrefl 0)
          · next hr =>
              rw [hr] at hih
              exact hih

/-- What the loop leaves: nothing to fold, and what it began with if it counted nothing. -/
theorem folded_of_endsIn {state result : Array Op × Nat} {turns : Nat} (h : EndsIn turn turns state result) :
    round result.1 = (result.1, 0) ∧
      (result = state ∨ state.2 < result.2 ∧ Op.liveCount result.1 < Op.liveCount state.1) := by
  induction h with
  | stop hs =>
      obtain ⟨hround, rfl⟩ := turn_eq_stop hs
      exact ⟨hround, .inl rfl⟩
  | next hm _ ih =>
      obtain ⟨hround, hresult⟩ := ih
      obtain ⟨rfl, hpos, hlt⟩ := turn_eq_next hm
      refine ⟨hround, .inr ?_⟩
      rcases hresult with rfl | ⟨hcount, hlive⟩
      · exact ⟨Nat.lt_add_of_pos_right hpos, hlt⟩
      · exact ⟨by omega, by omega⟩

end Fold

namespace Op

/-- The loop of folding stops, after at most one turn for each operation and one more. -/
theorem endsIn_foldConstants (ops : Array Op) :
    ∃ turns ≤ ops.size + 1, EndsIn Fold.turn turns (ops, 0) (foldConstants ops) := by
  have hlower : ∀ s t, True → Moves Fold.turn s t → True ∧ liveCount t.1 < liveCount s.1 :=
    fun s t _ hm => ⟨trivial, (Fold.turn_eq_next hm).2.2⟩
  obtain ⟨result, turns, hle, hends⟩ :=
    exists_endsIn_of_measure (fun state => liveCount state.1) hlower (s := (ops, 0)) trivial
  have hbound : turns ≤ ops.size + 1 := hle.trans (Nat.succ_le_succ (liveCount_le_size ops))
  have hresult : foldConstants ops = result := Fold.rounds_of_endsIn hends hbound
  exact ⟨turns, hbound, hresult ▸ hends⟩

theorem shrinks_foldConstants : Shrinks foldConstants := by
  intro ops
  obtain ⟨turns, -, hends⟩ := endsIn_foldConstants ops
  exact (Fold.folded_of_endsIn hends).2

/-- Folding again finds nothing to fold. -/
theorem round_foldConstants (ops : Array Op) :
    Fold.round (foldConstants ops).1 = ((foldConstants ops).1, 0) := by
  obtain ⟨turns, -, hends⟩ := endsIn_foldConstants ops
  exact (Fold.folded_of_endsIn hends).1

end Op

namespace Prune
variable {ops : Array Op}

/-- One turn of the search: the next address on the list is visited, and its successors are put on the list if it was
not reached before. -/
def turn (ops : Array Op) : List Nat × Array Bool → Transition (List Nat × Array Bool) (Array Bool)
  | ([], reached) => .stop reached
  | (addr :: work, reached) =>
    match ops[addr]? with
    | none => .next (work, reached)
    | some op =>
      if reached.getD addr false then .next (work, reached)
      else .next (op.successors addr ++ work, reached.setIfInBounds addr true)

/-- With a visit for each address on the list and two for each operation that is not reached yet, the search
stops within the visits. -/
theorem endsIn_follow {visits : Nat} {work : List Nat} {reached : Array Bool} (hsize : reached.size = ops.size)
    (hvisits : work.length + 2 * reached.count false ≤ visits) :
    ∃ turns ≤ visits + 1, EndsIn (turn ops) turns (work, reached) (follow ops visits work reached) := by
  fun_induction follow ops visits work reached with
  | case1 work reached =>
      obtain rfl : work = [] := List.eq_nil_of_length_eq_zero (by omega)
      exact ⟨1, le_rfl, .stop rfl⟩
  | case2 visits reached => exact ⟨1, by omega, .stop rfl⟩
  | case3 visits addr work reached ho ih =>
      obtain ⟨turns, hle, hends⟩ := ih hsize (by rw [List.length_cons] at hvisits; omega)
      exact ⟨turns + 1, by omega, .next (by simp [Moves, turn, ho]) hends⟩
  | case4 visits addr work reached op ho hf ih =>
      obtain ⟨turns, hle, hends⟩ := ih hsize (by rw [List.length_cons] at hvisits; omega)
      exact ⟨turns + 1, by omega, .next (by simp [Moves, turn, ho, hf]) hends⟩
  | case5 visits addr work reached op ho hf ih =>
      have hlt : addr < reached.size := hsize ▸ (Array.getElem?_eq_some_iff.mp ho).1
      -- An operation that is reached for the first time pays for the two addresses that it adds.
      have hcount := count_setIfInBounds hlt hf
      have hlen := op.length_successors_le addr
      obtain ⟨turns, hle, hends⟩ := ih (by rw [Array.size_setIfInBounds, hsize])
        (by rw [List.length_append]; rw [List.length_cons] at hvisits; omega)
      exact ⟨turns + 1, by omega, .next (by simp [Moves, turn, ho, hf]) hends⟩

/-- The search of pruning stops. -/
theorem endsIn_reached (ops : Array Op) : ∃ turns ≤ 2 * ops.size + 2,
    EndsIn (turn ops) turns ([0], Array.replicate ops.size false) (reached ops) :=
  endsIn_follow Array.size_replicate (by simp; omega)

end Prune

/-- No pass finds anything to change. -/
structure Op.Settled (ops : Array Op) : Prop where
  fold : foldConstants ops = (ops, 0)
  thread : threadJumps ops = (ops, 0)
  prune : prune ops = (ops, 0)
  bypass : bypassJumps ops = (ops, 0)

namespace Optimize

/-- One turn of the loop: a round, after which the loop stops if nothing was changed. -/
def turn (progress : Progress) : Transition Progress Progress :=
  if (round progress).2.changed = progress.2.changed then .stop (round progress) else .next (round progress)

/-- What is left to do at most: twice the live operations, and one more while transfers can be threaded. -/
def work (ops : Array Op) : Nat :=
  2 * Op.liveCount ops + if (Op.threadJumps ops).2 = 0 then 0 else 1

theorem work_le (ops : Array Op) : work ops ≤ 2 * ops.size + 1 := by
  have hle := Op.liveCount_le_size ops
  unfold work
  split <;> omega

theorem work_lt_of_liveCount_lt {ops ops' : Array Op} (h : Op.liveCount ops' < Op.liveCount ops) :
    work ops' < work ops := by
  unfold work
  split <;> split <;> omega

/-- Once transfers were threaded, less is left to do. -/
theorem work_threadJumps {ops : Array Op} (hsize : ops.size < 4294967296) (h : (Op.threadJumps ops).2 ≠ 0) :
    work (Op.threadJumps ops).1 < work ops := by
  have hagain : Op.threadJumps (Op.threadJumps ops).1 = ((Op.threadJumps ops).1, 0) :=
    Op.threadJumps_of_direct (Op.size_threadJumps hsize ▸ hsize) (Op.direct_threadJumps hsize)
  have hlive := Op.liveCount_threadJumps hsize
  unfold work
  rw [hagain, if_pos rfl, if_neg h]
  omega

section
variable {ops : Array Op} {stats : OptStats} {folded threaded pruned bypassed : Array Op × Nat}

/-- A round, by what each of its passes makes and counts. -/
theorem round_eq (hfold : Op.foldConstants ops = folded) (hthread : Op.threadJumps folded.1 = threaded)
    (hprune : Op.prune threaded.1 = pruned) (hbypass : Op.bypassJumps pruned.1 = bypassed) :
    round (ops, stats) = (bypassed.1,
      { stats with
        folded := stats.folded + folded.2
        threaded := stats.threaded + threaded.2
        unreachable := stats.unreachable + pruned.2
        jumpsRemoved := stats.jumpsRemoved + bypassed.2 }) := by
  subst hfold hthread hprune hbypass
  rfl

/-- A round that counts no change finds nothing to do in any pass. Any other leaves less to do. -/
theorem round_cases (hsize : ops.size < 4294967296) :
    round (ops, stats) = (ops, stats) ∧ Op.Settled ops ∨
      stats.changed < (round (ops, stats)).2.changed ∧ work (round (ops, stats)).1 < work ops := by
  generalize hfold : Op.foldConstants ops = folded
  generalize hthread : Op.threadJumps folded.1 = threaded
  generalize hprune : Op.prune threaded.1 = pruned
  generalize hbypass : Op.bypassJumps pruned.1 = bypassed
  rw [round_eq hfold hthread hprune hbypass]
  by_cases hquiet : folded.2 = 0 ∧ pruned.2 = 0 ∧ bypassed.2 = 0
  · obtain rfl := Op.shrinks_foldConstants.same hfold hquiet.1
    obtain rfl := Op.shrinks_prune.same hprune hquiet.2.1
    obtain rfl := Op.shrinks_bypassJumps.same hbypass hquiet.2.2
    by_cases hzero : threaded.2 = 0
    · obtain ⟨hsame, -⟩ := Op.direct_of_threadJumps hsize (hthread ▸ hzero)
      obtain rfl : (ops, 0) = threaded := hsame.symm.trans hthread
      exact .inl ⟨rfl, hfold, hthread, hprune, hbypass⟩
    · subst hthread
      refine .inr ⟨?_, work_threadJumps hsize hzero⟩
      dsimp only [OptStats.changed] at hzero ⊢
      omega
  · have hsame : folded.1.size = ops.size := hfold ▸ size_of_changes (Op.changes_foldConstants ops)
    have hfolded := Op.shrinks_foldConstants.le hfold
    have hthreaded := hthread ▸ Op.liveCount_threadJumps (hsame ▸ hsize)
    have hpruned := Op.shrinks_prune.le hprune
    have hbypassed := Op.shrinks_bypassJumps.le hbypass
    refine .inr ⟨?_, work_lt_of_liveCount_lt ?_⟩
    · dsimp only [OptStats.changed]
      omega
    · dsimp only
      simp only [not_and_or] at hquiet
      rcases hquiet with hcount | hcount | hcount
      · have := Op.shrinks_foldConstants.lt hfold hcount
        omega
      · have := Op.shrinks_prune.lt hprune hcount
        omega
      · have := Op.shrinks_bypassJumps.lt hbypass hcount
        omega

end

/-- A turn that stops the loop changed nothing, and nothing is left to do. -/
theorem turn_eq_stop {progress result : Progress} (hsize : progress.1.size < 4294967296)
    (h : turn progress = .stop result) : result = progress ∧ Op.Settled progress.1 := by
  unfold turn at h
  split_ifs at h with hsame
  obtain rfl := Transition.stop.inj h
  rcases round_cases hsize with hquiet | ⟨hchanged, -⟩
  · exact hquiet
  · exact absurd hsame (Nat.ne_of_gt hchanged)

/-- A turn after which the loop goes on counts a change and leaves less to do. -/
theorem turn_eq_next {progress next : Progress} (hsize : progress.1.size < 4294967296)
    (h : Moves turn progress next) : next.1.size = progress.1.size ∧
      progress.2.changed < next.2.changed ∧ work next.1 < work progress.1 := by
  unfold Moves turn at h
  split_ifs at h with hsame
  obtain rfl := Transition.next.inj h
  rcases round_cases hsize with ⟨hquiet, -⟩ | hcounts
  · exact absurd (congrArg (fun p : Progress => p.2.changed) hquiet) hsame
  · exact ⟨size_of_changes (changes_round hsize .refl), hcounts⟩

/-- With a bound that is not below the number of turns, the rounds are those of the loop. -/
theorem rounds_of_endsIn {progress result : Progress} {turns bound : Nat} (h : EndsIn turn turns progress result)
    (hle : turns ≤ bound) : rounds bound progress = result := by
  induction bound generalizing progress turns with
  | zero => cases h <;> omega
  | succ bound ih =>
      unfold rounds
      cases h with
      | stop hs =>
          unfold turn at hs
          split_ifs at hs with hsame
          obtain rfl := Transition.stop.inj hs
          exact if_pos hsame
      | next hm hrest =>
          unfold Moves turn at hm
          split_ifs at hm with hsame
          obtain rfl := Transition.next.inj hm
          rw [if_neg hsame]
          exact ih hrest (by omega)

/-- The loop of the last level stops, after at most twice as many turns as there are operations, and two. -/
theorem endsIn_passes {ops : Array Op} (hsize : ops.size < 4294967296) :
    ∃ turns ≤ 2 * ops.size + 2, EndsIn turn turns (ops, {}) (passes .o3 ops) := by
  have hlower : ∀ s t : Progress, s.1.size < 4294967296 → Moves turn s t →
      t.1.size < 4294967296 ∧ work t.1 < work s.1 := by
    intro s t hs hm
    obtain ⟨hsame, -, hwork⟩ := turn_eq_next hs hm
    exact ⟨hsame ▸ hs, hwork⟩
  obtain ⟨result, turns, hle, hends⟩ :=
    exists_endsIn_of_measure (fun progress : Progress => work progress.1) hlower (s := (ops, {})) hsize
  have hbound : turns ≤ 2 * ops.size + 2 := hle.trans (Nat.succ_le_succ (work_le ops))
  have hresult : passes .o3 ops = result := rounds_of_endsIn hends hbound
  exact ⟨turns, hbound, hresult ▸ hends⟩

/-- What the last level leaves: operations in which no pass finds anything to change. They are those that there were if
no change was counted. -/
theorem settled_of_endsIn {progress result : Progress} {turns : Nat} (hsize : progress.1.size < 4294967296)
    (h : EndsIn turn turns progress result) :
    Op.Settled result.1 ∧ (result = progress ∨ progress.2.changed < result.2.changed) := by
  induction h with
  | stop hs =>
      obtain ⟨rfl, hsettled⟩ := turn_eq_stop hsize hs
      exact ⟨hsettled, .inl rfl⟩
  | next hm _ ih =>
      obtain ⟨hsame, hmore, -⟩ := turn_eq_next hsize hm
      obtain ⟨hsettled, rfl | hlater⟩ := ih (hsame ▸ hsize)
      · exact ⟨hsettled, .inr hmore⟩
      · exact ⟨hsettled, .inr (hmore.trans hlater)⟩

theorem settled_passes {ops : Array Op} (hsize : ops.size < 4294967296) : Op.Settled (passes .o3 ops).1 := by
  obtain ⟨turns, -, hends⟩ := endsIn_passes hsize
  exact (settled_of_endsIn hsize hends).1

/-- Operations in which no pass finds anything to change stay as they are. -/
theorem passes_of_settled {ops : Array Op} (h : Op.Settled ops) : passes .o3 ops = (ops, {}) := by
  have hround : round (ops, {}) = (ops, {}) := round_eq h.fold h.thread h.prune h.bypass
  have hturn : turn (ops, {}) = .stop (ops, {}) := by
    unfold turn
    rw [hround]
    exact if_pos rfl
  exact rounds_of_endsIn (.stop hturn) (by omega)

/-- They are all that the last level counts no change in. -/
theorem settled_iff_passes {ops : Array Op} (hsize : ops.size < 4294967296) :
    Op.Settled ops ↔ (passes .o3 ops).2.changed = 0 := by
  obtain ⟨turns, -, hends⟩ := endsIn_passes hsize
  obtain ⟨hsettled, hcases⟩ := settled_of_endsIn hsize hends
  constructor
  · intro h
    rw [passes_of_settled h]
    rfl
  · intro h
    rcases hcases with hsame | hmore
    · rwa [hsame] at hsettled
    · exact absurd hmore (by rw [h]; exact Nat.not_lt_zero _)

theorem size_of_turns {ops : Array Op} (hsize : ops.size < 4294967296) {progress : Progress}
    (h : Relation.ReflTransGen (Moves turn) (ops, {}) progress) : progress.1.size = ops.size := by
  induction h with
  | refl => rfl
  | tail _ hm ih => exact (turn_eq_next (ih ▸ hsize) hm).1.trans ih

/-- The loop of the last level stops, whatever jumps a program has, after at most twice as many rounds as there are
operations, and two. In each of its rounds the loop of folding and the search of pruning stop as well. The bounded
functions compute what these loops end with. -/
theorem loops_stop (program : Program) (hsize : program.ops.size < 4294967296) :
    (∃ turns ≤ 2 * program.ops.size + 2, EndsIn turn turns (program.ops, {}) (passes .o3 program.ops)) ∧
    ∀ progress, Relation.ReflTransGen (Moves turn) (program.ops, {}) progress →
      (∃ turns ≤ program.ops.size + 1,
        EndsIn Fold.turn turns (progress.1, 0) (Op.foldConstants progress.1)) ∧
      ∃ turns ≤ 2 * program.ops.size + 2, EndsIn (Prune.turn (thread (fold progress)).1) turns
        ([0], Array.replicate program.ops.size false) (Prune.reached (thread (fold progress)).1) := by
  refine ⟨endsIn_passes hsize, fun progress h => ?_⟩
  have hsame := size_of_turns hsize h
  have hthread : (thread (fold progress)).1.size = program.ops.size :=
    (size_of_changes (changes_thread (hsame ▸ hsize) (changes_fold .refl))).trans hsame
  exact ⟨hsame ▸ Op.endsIn_foldConstants progress.1, hthread ▸ Prune.endsIn_reached _⟩

/-- A constant condition in front of a circle of jumps. -/
theorem loops_stop_circle :
    let program : Program :=
      { ops := #[.push 1, .jumpIf 3, .exit, .jump 5, .nop, .jump 3], lines := #[1, 1, 2, 3, 4, 5] }
    program.ops.size < 4294967296 ∧
      ∃ turns ≤ 14, EndsIn turn turns (program.ops, {}) (passes .o3 program.ops) := by
  intro program
  have hsize : program.ops.size < 4294967296 := by decide
  exact ⟨hsize, (loops_stop program hsize).1⟩

end Optimize

end GotoLang
