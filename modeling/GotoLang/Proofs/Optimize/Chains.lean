import GotoLang.Proofs.Optimize.Jumps

/-!
# Chains of jumps

The chain of a transfer is the walk from its target that skips empty operations and follows jumps. It comes
to rest at another operation or at a jump to itself, it runs off the end, or it goes on forever, which it can only in a
circle. Threading finds out which of these it is with a bounded number of hops.

The bound never cuts off a chain that comes to rest: such a chain passes no operation twice. Transfers are changed while
others are still to be followed through them, but a transfer that is sent to the end of its chain
leaves the ends of all chains as they are. So threading sends every transfer to the end that its chain has in the
operations as they were at first, and finds nothing to do when it is called again.
-/
namespace GotoLang

namespace Jumps

/-- One step of the walk: over an empty operation to the next one, over a jump to where it goes. -/
def walk (ops : Array Op) (addr : Nat) : Transition Nat (Option Nat) :=
  match ops[addr]? with
  | none => .stop none
  | some .nop => .next (addr + 1)
  | some (.jump target) => if target.toNat = addr then .stop (some addr) else .next target.toNat
  | some _ => .stop (some addr)

/-- The chain from an address comes to rest at another. -/
def RestsAt (ops : Array Op) (addr last : Nat) : Prop :=
  Ends (walk ops) addr (some last)

section
variable {ops ops' : Array Op} {addr last live : Nat}

theorem walk_congr (h : ops[addr]? = ops'[addr]?) : walk ops addr = walk ops' addr := by
  unfold walk
  rw [h]

theorem walk_of_nop (h : ops[addr]? = some .nop) : Moves (walk ops) addr (addr + 1) := by
  unfold Moves walk
  rw [h]

theorem walk_of_jump {target : Addr} (h : ops[addr]? = some (.jump target)) (hne : target.toNat ≠ addr) :
    Moves (walk ops) addr target.toNat := by
  unfold Moves walk
  rw [h]
  exact if_neg hne

theorem walk_of_size_le (h : ops.size ≤ addr) : walk ops addr = .stop none := by
  unfold walk
  rw [Array.getElem?_eq_none h]

/-- A live operation that is not a jump elsewhere ends a walk. -/
theorem walk_of_live {op : Op} (h : ops[addr]? = some op) (hlive : op ≠ .nop)
    (hjump : ∀ target, op = .jump target → target.toNat = addr) : walk ops addr = .stop (some addr) := by
  unfold walk
  rw [h]
  cases op with
  | nop => exact absurd rfl hlive
  | jump target => exact if_pos (hjump target rfl)
  | _ => rfl

/-- Only such an operation does. -/
theorem walk_eq_stop (h : walk ops addr = .stop (some last)) :
    last = addr ∧ ∃ op, ops[addr]? = some op ∧ op ≠ .nop ∧
      ∀ target, op = .jump target → target.toNat = addr := by
  unfold walk at h
  split at h
  · cases h
  · cases h
  · next target ho =>
      split_ifs at h with heq
      cases h
      refine ⟨rfl, _, ho, by simp, fun t ht => ?_⟩
      cases ht
      exact heq
  · next op hnop hjump ho =>
      cases h
      refine ⟨rfl, op, ho, hnop, fun target ht => ?_⟩
      exact absurd ht (hjump target)

theorem walk_eq_next {next : Nat} (h : Moves (walk ops) addr next) :
    ops[addr]? = some .nop ∧ next = addr + 1 ∨
      ∃ target : Addr, ops[addr]? = some (.jump target) ∧ target.toNat ≠ addr ∧ next = target.toNat := by
  unfold Moves walk at h
  split at h
  · cases h
  · next hnop =>
      cases h
      exact .inl ⟨hnop, rfl⟩
  · next target hjump =>
      split_ifs at h with hself
      cases h
      exact .inr ⟨target, hjump, hself, rfl⟩
  · cases h

theorem walk_nops {first : Nat} (h : Op.Nops ops first last) (hle : first ≤ last) :
    Relation.ReflTransGen (Moves (walk ops)) first last := by
  induction hle using Nat.decreasingInduction with
  | self => exact .refl
  | of_succ k hk ih => exact .head (walk_of_nop (h k le_rfl hk)) (ih h.tail)

/-- A walk passes the next live operation. -/
theorem walk_nextLive (h : Op.nextLive? ops addr = some live) :
    Relation.ReflTransGen (Moves (walk ops)) addr live := by
  obtain ⟨hle, -, -, hnops⟩ := Op.nextLive?_eq_some.mp h
  exact walk_nops hnops hle

theorem ends_of_no_live (h : Op.nextLive? ops addr = none) : Ends (walk ops) addr none := by
  by_cases hle : addr ≤ ops.size
  · exact (Ends.stop (walk_of_size_le le_rfl)).before (walk_nops (Op.nextLive?_eq_none h) hle)
  · exact .stop (walk_of_size_le (by omega))

/-- Where a chain comes to rest, the walk ends at once. -/
theorem RestsAt.walk_eq (h : RestsAt ops addr last) : walk ops last = .stop (some last) := by
  obtain ⟨steps, h⟩ := h
  generalize hr : some last = result at h
  induction h with
  | @stop s r hs =>
      subst hr
      obtain ⟨rfl, -⟩ := walk_eq_stop hs
      exact hs
  | next _ _ ih => exact ih hr

theorem RestsAt.exists_op (h : RestsAt ops addr last) :
    ∃ op, ops[last]? = some op ∧ op ≠ .nop ∧ ∀ target, op = .jump target → target.toNat = last :=
  (walk_eq_stop h.walk_eq).2

theorem RestsAt.lt_size (h : RestsAt ops addr last) : last < ops.size := by
  obtain ⟨op, ho, -⟩ := h.exists_op
  exact (Array.getElem?_eq_some_iff.mp ho).1

theorem RestsAt.here (h : RestsAt ops addr last) : RestsAt ops last last :=
  Ends.stop h.walk_eq

theorem RestsAt.nextLive_self (h : RestsAt ops addr last) : Op.nextLive? ops last = some last := by
  obtain ⟨op, ho, hlive, -⟩ := h.exists_op
  refine Op.nextLive?_eq_some.mpr ⟨le_rfl, h.lt_size, fun hnop => hlive ?_, fun a ha hlt => ?_⟩
  · rw [ho] at hnop
    exact Option.some.inj hnop
  · omega

theorem RestsAt.exists_nextLive (h : RestsAt ops addr last) : ∃ live, Op.nextLive? ops addr = some live := by
  cases hl : Op.nextLive? ops addr with
  | none => cases (ends_of_no_live hl).unique h
  | some live => exact ⟨live, rfl⟩

end

section
variable {ops : Array Op} {target : Addr} {current last : Nat}

/-- A chain that comes to rest takes no more steps than there are operations. -/
theorem steps_le_size {steps : Nat} (h : EndsIn (walk ops) steps current (some last)) : steps ≤ ops.size := by
  have hinside : ∀ addr, Relation.ReflTransGen (Moves (walk ops)) current addr →
      addr ∈ List.range ops.size := by
    intro addr hpath
    rw [List.mem_range]
    by_contra hout
    have hoff : Ends (walk ops) addr none := .stop (walk_of_size_le (by omega))
    cases hoff.unique (Ends.along ⟨steps, h⟩ hpath)
  simpa using h.le_length hinside

/-- At the next live operation a walk ends or follows a jump. -/
theorem stop_or_jump {live : Nat} (h : Op.nextLive? ops current = some live) :
    walk ops live = .stop (some live) ∨
      ∃ next, ops[live]? = some (.jump next) ∧ next.toNat ≠ live := by
  obtain ⟨-, hlt, hlive, -⟩ := Op.nextLive?_eq_some.mp h
  have ho := Array.getElem?_eq_getElem hlt
  by_cases hjump : ∀ next, ops[live] = .jump next → next.toNat = live
  · exact .inl (walk_of_live ho (fun hnop => hlive (hnop ▸ ho)) hjump)
  · simp only [not_forall] at hjump
    obtain ⟨next, hj, hne⟩ := hjump
    exact .inr ⟨next, hj ▸ ho, hne⟩

theorem destinationWithin_of_stop {hops live : Nat} (h : Op.nextLive? ops current = some live)
    (hstop : walk ops live = .stop (some live)) :
    destinationWithin ops target (hops + 1) current = live.toUInt32 := by
  obtain ⟨-, op, ho, -, hjump⟩ := walk_eq_stop hstop
  unfold destinationWithin
  simp only [h, ho]
  split
  · next next hj =>
      cases hj
      rw [if_neg (not_not.mpr (hjump next rfl))]
  · rfl

theorem destinationWithin_of_jump {hops live : Nat} {next : Addr}
    (h : Op.nextLive? ops current = some live) (hj : ops[live]? = some (.jump next))
    (hne : next.toNat ≠ live) :
    destinationWithin ops target (hops + 1) current = destinationWithin ops target hops next.toNat := by
  rw [destinationWithin]
  simp only [h, hj]
  exact if_pos hne

/-- With as many hops as the chain has steps, the search finds its end. -/
theorem destinationWithin_of_endsIn {steps hops : Nat} (h : EndsIn (walk ops) steps current (some last))
    (hle : steps ≤ hops) : destinationWithin ops target hops current = last.toUInt32 := by
  induction hops generalizing current steps with
  | zero => cases h <;> omega
  | succ hops ih =>
      obtain ⟨live, hl⟩ := RestsAt.exists_nextLive ⟨steps, h⟩
      obtain ⟨left, hleft, hend⟩ := h.along (walk_nextLive hl)
      rcases stop_or_jump hl with hstop | ⟨next, hj, hne⟩
      · cases (Ends.stop hstop).unique ⟨left, hend⟩
        exact destinationWithin_of_stop hl hstop
      · obtain ⟨left', rfl, hend'⟩ := hend.of_moves (walk_of_jump hj hne)
        rw [destinationWithin_of_jump hl hj hne]
        exact ih hend' (by omega)

/-- The search finds the end of every chain that comes to rest. -/
theorem destination_of_restsAt (h : RestsAt ops target.toNat last) :
    destination ops target = last.toUInt32 := by
  obtain ⟨steps, hsteps⟩ := h
  have hle := steps_le_size hsteps
  exact destinationWithin_of_endsIn hsteps (by omega)

/-- The search answers with its default where no chain comes to rest. -/
theorem destinationWithin_of_not_restsAt {hops : Nat} (h : ∀ last, ¬ RestsAt ops current last) :
    destinationWithin ops target hops current = target := by
  induction hops generalizing current with
  | zero => rfl
  | succ hops ih =>
      cases hl : Op.nextLive? ops current with
      | none =>
          unfold destinationWithin
          rw [hl]
      | some live =>
          have hpath := walk_nextLive hl
          rcases stop_or_jump hl with hstop | ⟨next, hj, hne⟩
          · exact absurd (Ends.before hpath (.stop hstop)) (h live)
          · rw [destinationWithin_of_jump hl hj hne]
            exact ih fun last hlast => h last (Ends.before (hpath.tail (walk_of_jump hj hne)) hlast)

end

section
variable {ops ops' : Array Op} {addr : Nat}

theorem toNat_toUInt32 {n : Nat} (h : n < 4294967296) : n.toUInt32.toNat = n := by
  rw [Nat.toUInt32_eq, UInt32.toNat_ofNat']
  omega

/-- One transfer, which does not get there directly, is sent to the end of its chain. -/
def Shortens (ops : Array Op) (addr : Nat) (ops' : Array Op) : Prop :=
  ∃ op target last op', ops[addr]? = some op ∧ op.target? = some target ∧
    RestsAt ops target.toNat last ∧ Op.nextLive? ops target.toNat ≠ some last ∧
    op.retarget? last.toUInt32 = some op' ∧ ops' = ops.setIfInBounds addr op'

/-- Threading changes a transfer if and only if its chain comes to rest elsewhere than where it lands. -/
theorem threadAt?_eq_some (hsize : ops.size < 4294967296) :
    threadAt? ops addr = some ops' ↔ Shortens ops addr ops' := by
  constructor
  · intro h
    simp only [threadAt?, Option.bind_eq_bind, Option.bind_eq_some_iff] at h
    obtain ⟨op, ho, target, ht, h⟩ := h
    split_ifs at h with hc
    obtain ⟨op', hop', h⟩ := Option.bind_eq_some_iff.mp h
    cases h
    by_cases hrest : ∃ last, RestsAt ops target.toNat last
    · obtain ⟨last, hrest⟩ := hrest
      rw [destination_of_restsAt hrest] at hc hop'
      refine ⟨op, target, last, op', ho, ht, hrest, fun hl => ?_, hop', rfl⟩
      exact hc.2 (by rw [hl, Option.map_some])
    · exact absurd (destinationWithin_of_not_restsAt (not_exists.mp hrest)) hc.1
  · rintro ⟨op, target, last, op', ho, ht, hrest, hl, hop', rfl⟩
    have hlast := toNat_toUInt32 (hrest.lt_size.trans hsize)
    have htarget : last.toUInt32 ≠ target := by
      rintro rfl
      rw [hlast] at hl
      exact hl hrest.nextLive_self
    have hdirect : some last.toUInt32 ≠ (Op.nextLive? ops target.toNat).map Nat.toUInt32 := by
      intro heq
      obtain ⟨live, hlive, heq⟩ := Option.map_eq_some_iff.mp heq.symm
      have hlt := (Op.nextLive?_eq_some.mp hlive).2.1
      rw [← hlast, ← heq, toNat_toUInt32 (hlt.trans hsize)] at hl
      exact hl hlive
    simp only [threadAt?, ho, ht, Option.bind_eq_bind, Option.bind_some, destination_of_restsAt hrest]
    rw [if_pos ⟨htarget, hdirect⟩, hop']
    rfl

theorem target?_of_retarget? {op op' : Op} {target : Addr} (h : op.retarget? target = some op') :
    op'.target? = some target := by
  cases op <;> cases h <;> rfl

theorem exists_retarget? {op : Op} {target : Addr} (h : op.target? = some target) (target' : Addr) :
    ∃ op', op.retarget? target' = some op' := by
  cases op <;> cases h <;> exact ⟨_, rfl⟩

theorem ne_nop_of_target? {op : Op} {target : Addr} (h : op.target? = some target) : op ≠ .nop := by
  rintro rfl
  cases h

theorem Shortens.size (h : Shortens ops addr ops') : ops'.size = ops.size := by
  obtain ⟨_, _, _, _, _, _, _, _, _, rfl⟩ := h
  exact Array.size_setIfInBounds

theorem Shortens.elsewhere (h : Shortens ops addr ops') {other : Nat} (hne : other ≠ addr) :
    ops'[other]? = ops[other]? := by
  obtain ⟨_, _, _, _, _, _, _, _, _, rfl⟩ := h
  exact Array.getElem?_setIfInBounds_ne hne.symm

/-- Empty operations stay where they are. -/
theorem Shortens.nextLive? (h : Shortens ops addr ops') : Op.nextLive? ops' = Op.nextLive? ops := by
  refine Op.nextLive?_congr h.size fun other => ?_
  by_cases hne : other = addr
  · obtain ⟨op, target, last, op', ho, ht, -, -, hop', rfl⟩ := h
    have haddr := (Array.getElem?_eq_some_iff.mp ho).1
    have hop := ne_nop_of_target? ht
    have hop' := ne_nop_of_target? (target?_of_retarget? hop')
    rw [hne, ho, Array.getElem?_setIfInBounds_self_of_lt haddr]
    simp [hop, hop']
  · rw [h.elsewhere hne]

/-- The transfer itself comes to rest where it did before. -/
theorem Shortens.restsAt (h : Shortens ops addr ops') (hsize : ops.size < 4294967296) :
    ∃ last, RestsAt ops addr last ∧ RestsAt ops' addr last := by
  have helse : ∀ {other}, other ≠ addr → ops'[other]? = ops[other]? := h.elsewhere
  obtain ⟨op, target, last, op', ho, ht, hrest, hl, hop', rfl⟩ := h
  have ho' : (ops.setIfInBounds addr op')[addr]? = some op' :=
    Array.getElem?_setIfInBounds_self_of_lt (Array.getElem?_eq_some_iff.mp ho).1
  cases op with
  | jump target' =>
      cases ht
      cases hop'
      have hlast := toNat_toUInt32 (hrest.lt_size.trans hsize)
      -- It is no jump to itself, and the chain does not end at it.
      have htarget : target.toNat ≠ addr := by
        intro heq
        have hself := walk_of_live ho (by simp) fun t h => by cases h; exact heq
        rw [heq] at hrest hl
        cases (Ends.stop hself).unique hrest
        exact hl hrest.nextLive_self
      have hne : last ≠ addr := by
        rintro rfl
        obtain ⟨op, hop, -, hself⟩ := hrest.exists_op
        exact htarget (hself target (Option.some.inj (hop.symm.trans ho)))
      have hmove := walk_of_jump ho' (by rwa [hlast])
      rw [hlast] at hmove
      refine ⟨last, hrest.before (.single (walk_of_jump ho htarget)), ?_⟩
      exact Ends.before (.single hmove) (.stop ((walk_congr (helse hne)).trans hrest.walk_eq))
  | jumpIf target' =>
      cases hop'
      have hstop := walk_of_live ho (by simp) (by simp)
      have hstop' := walk_of_live ho' (by simp) (by simp)
      exact ⟨addr, Ends.stop hstop, Ends.stop hstop'⟩
  | _ => cases ht

/-- A transfer that is sent to the end of its chain leaves the ends of all chains as they are. -/
theorem Shortens.ends_iff (h : Shortens ops addr ops') (hsize : ops.size < 4294967296) (first : Nat)
    (result : Option Nat) : Ends (walk ops') first result ↔ Ends (walk ops) first result := by
  have hmeet : Meeting (walk ops) (walk ops') Eq Eq := by
    rintro current _ rfl
    by_cases hne : current = addr
    · obtain ⟨last, hrest, hrest'⟩ := h.restsAt hsize
      exact .inl ⟨some last, some last, hne ▸ hrest, hne ▸ hrest', rfl⟩
    · have heq := walk_congr (h.elsewhere hne)
      cases hw : walk ops current with
      | stop r => exact .inl ⟨r, r, .stop hw, .stop (heq.trans hw), rfl⟩
      | next t => exact .inr ⟨t, t, .single hw, .single (heq.trans hw), rfl⟩
  constructor
  · intro hr
    obtain ⟨q, hq, rfl⟩ := hmeet.swap.ends rfl hr
    exact hq
  · intro hr
    obtain ⟨q, hq, rfl⟩ := hmeet.ends rfl hr
    exact hq

end

/-- What becomes of an operation: a transfer whose chain comes to rest lands there directly, and everything else
stays. -/
structure Resolves (ops : Array Op) (op op' : Op) : Prop where
  lands : ∀ target last, op.target? = some target → RestsAt ops target.toNat last →
    ∃ target', op.retarget? target' = some op' ∧ Op.nextLive? ops target'.toNat = some last
  stays : (∀ target last, op.target? = some target → ¬ RestsAt ops target.toNat last) → op' = op

/-- Threading on its way, behind the operations before an address. -/
structure Threading (ops : Array Op) (addr : Nat) (now : Array Op) : Prop where
  size : now.size = ops.size
  nextLive? : Op.nextLive? now = Op.nextLive? ops
  ends_iff : ∀ first result, Ends (walk now) first result ↔ Ends (walk ops) first result
  before : ∀ other op, other < addr → ops[other]? = some op → ∃ op', now[other]? = some op' ∧ Resolves ops op op'
  behind : ∀ other, addr ≤ other → now[other]? = ops[other]?

section
variable {ops now : Array Op} {addr : Nat}

theorem threading_start (ops : Array Op) : Threading ops 0 ops :=
  ⟨rfl, rfl, fun _ _ => .rfl, fun _ _ hlt => absurd hlt (Nat.not_lt_zero _), fun _ _ => rfl⟩

/-- The transfer that is reached is followed through operations that were changed, but to the same end. -/
theorem Threading.change (h : Threading ops addr now) (hsize : ops.size < 4294967296) {new : Array Op}
    (hc : threadAt? now addr = some new) : Threading ops (addr + 1) new := by
  have hnow : now.size < 4294967296 := h.size ▸ hsize
  have hs := (threadAt?_eq_some hnow).mp hc
  refine ⟨hs.size.trans h.size, hs.nextLive?.trans h.nextLive?,
    fun first result => (hs.ends_iff hnow first result).trans (h.ends_iff first result), ?_, ?_⟩
  · intro other op hlt ho
    by_cases hne : other = addr
    · subst hne
      obtain ⟨op₀, target, last, op', ho₀, ht, hrest, -, hop', rfl⟩ := hs
      rw [h.behind other le_rfl, ho] at ho₀
      cases ho₀
      have hlast : RestsAt ops target.toNat last := (h.ends_iff _ _).mp hrest
      have haddr : other < now.size := h.size ▸ (Array.getElem?_eq_some_iff.mp ho).1
      refine ⟨op', Array.getElem?_setIfInBounds_self_of_lt haddr, fun t l ht' hl => ?_, fun hno => ?_⟩
      · rw [ht] at ht'
        cases ht'
        cases hl.unique hlast
        refine ⟨_, hop', ?_⟩
        rw [toNat_toUInt32 (hlast.lt_size.trans hsize)]
        exact hlast.nextLive_self
      · exact absurd hlast (hno target last ht)
    · rw [hs.elsewhere hne]
      exact h.before other op (by omega) ho
  · intro other hle
    rw [hs.elsewhere (by omega)]
    exact h.behind other (by omega)

/-- A transfer that is not changed lands at the end of its chain already, or has none. -/
theorem Threading.keep (h : Threading ops addr now) (hsize : ops.size < 4294967296)
    (hc : threadAt? now addr = none) : Threading ops (addr + 1) now := by
  have hnow : now.size < 4294967296 := h.size ▸ hsize
  refine ⟨h.size, h.nextLive?, h.ends_iff, fun other op hlt ho => ?_, fun other hle => h.behind other (by omega)⟩
  by_cases hne : other = addr
  · subst hne
    have ho' : now[other]? = some op := (h.behind other le_rfl).trans ho
    refine ⟨op, ho', fun target last ht hrest => ⟨target, ?_, ?_⟩, fun _ => rfl⟩
    · cases op <;> cases ht <;> rfl
    · by_contra hl
      obtain ⟨op', hop'⟩ := exists_retarget? ht last.toUInt32
      have hs : Shortens now other (now.setIfInBounds other op') :=
        ⟨op, target, last, op', ho', ht, (h.ends_iff _ _).mpr hrest, h.nextLive? ▸ hl, hop', rfl⟩
      rw [(threadAt?_eq_some hnow).mpr hs] at hc
      cases hc
  · exact h.before other op (by omega) ho

end

/-- Threading brings every transfer to the end of its chain. -/
theorem threading (ops : Array Op) (hsize : ops.size < 4294967296) :
    Threading ops ops.size (Op.threadJumps ops).1 :=
  sweep_positions (P := fun addr now _ => Threading ops addr now) (threading_start ops)
    (fun _ h hc => h.change hsize hc) fun _ h hc => h.keep hsize hc

/-- Every transfer whose chain comes to rest lands there. -/
def Direct (ops : Array Op) : Prop :=
  ∀ (addr : Nat) (op : Op) (target : Addr) (last : Nat), ops[addr]? = some op → op.target? = some target →
    RestsAt ops target.toNat last → Op.nextLive? ops target.toNat = some last

theorem direct_iff {ops : Array Op} (hsize : ops.size < 4294967296) :
    Direct ops ↔ ∀ addr < ops.size, threadAt? ops addr = none := by
  constructor
  · intro h addr _
    by_contra hc
    obtain ⟨ops', hc⟩ := Option.ne_none_iff_exists'.mp hc
    obtain ⟨op, target, last, _, ho, ht, hrest, hl, -⟩ := (threadAt?_eq_some hsize).mp hc
    exact hl (h addr op target last ho ht hrest)
  · intro h addr op target last ho ht hrest
    by_contra hl
    obtain ⟨op', hop'⟩ := exists_retarget? ht last.toUInt32
    have hs : Shortens ops addr (ops.setIfInBounds addr op') :=
      ⟨op, target, last, op', ho, ht, hrest, hl, hop', rfl⟩
    have hnone := h addr (Array.getElem?_eq_some_iff.mp ho).1
    rw [(threadAt?_eq_some hsize).mpr hs] at hnone
    cases hnone

end Jumps

namespace Op
open Jumps
variable {ops : Array Op}

theorem size_threadJumps (hsize : ops.size < 4294967296) : (threadJumps ops).1.size = ops.size :=
  (threading ops hsize).size

/-- After threading, transfers land where their chains come to rest. -/
theorem direct_threadJumps (hsize : ops.size < 4294967296) : Direct (threadJumps ops).1 := by
  have h := threading ops hsize
  intro addr op' target' last ho' ht' hrest
  have haddr : addr < ops.size := h.size ▸ (Array.getElem?_eq_some_iff.mp ho').1
  have ho := Array.getElem?_eq_getElem haddr
  obtain ⟨op₁, ho₁, hresolves⟩ := h.before addr _ haddr ho
  rw [ho'] at ho₁
  cases ho₁
  rw [h.nextLive?]
  have hrest' : RestsAt ops target'.toNat last := (h.ends_iff _ _).mp hrest
  by_cases hno : ∀ target last, ops[addr].target? = some target → ¬ RestsAt ops target.toNat last
  · rw [hresolves.stays hno] at ht'
    exact absurd hrest' (hno target' last ht')
  · simp only [not_forall, not_not] at hno
    obtain ⟨target, last', ht, hlast'⟩ := hno
    obtain ⟨final, hfinal, hl⟩ := hresolves.lands target last' ht hlast'
    rw [target?_of_retarget? hfinal] at ht'
    cases ht'
    -- The new target lands at the end of the old chain, so its own chain ends there.
    have hend : RestsAt ops target'.toNat last' := Ends.before (walk_nextLive hl) hlast'.here
    cases hend.unique hrest'
    exact hl

theorem threadJumps_of_direct (hsize : ops.size < 4294967296) (h : Direct ops) :
    threadJumps ops = (ops, 0) :=
  sweep_of_none ((direct_iff hsize).mp h)

theorem direct_of_threadJumps (hsize : ops.size < 4294967296) (h : (threadJumps ops).2 = 0) :
    threadJumps ops = (ops, 0) ∧ Direct ops := by
  obtain ⟨hsame, hnone⟩ := sweep_eq_zero h
  exact ⟨hsame, (direct_iff hsize).mpr hnone⟩

/-- Threading sends each transfer whose chain comes to rest to a place from where only empty operations lead to
the end of the chain. A transfer whose chain runs off the end or goes on forever stays as it is, and so does everything
that is no transfer. Threading again changes nothing, and a larger bound on the hops of the search would find no other
end: where a chain comes to rest, the search finds out. -/
theorem threadJumps_exact (ops : Array Op) (hsize : ops.size < 4294967296) :
    let threaded := (threadJumps ops).1
    threaded.size = ops.size ∧
    (∀ (addr : Nat) (op : Op), ops[addr]? = some op →
      (op.target? = none → threaded[addr]? = some op) ∧
      ∀ target, op.target? = some target →
        (∀ last, Ends (walk ops) target.toNat (some last) → ∃ op' target', threaded[addr]? = some op' ∧
          op.retarget? target' = some op' ∧ nextLive? threaded target'.toNat = some last) ∧
        (Ends (walk ops) target.toNat none ∨ Diverges (walk ops) target.toNat →
          threaded[addr]? = some op)) ∧
    threadJumps threaded = (threaded, 0) ∧
    ∀ target : Addr,
      (∀ last, Ends (walk ops) target.toNat (some last) → (destination ops target).toNat = last) ∧
      ∀ hops ≥ ops.size, destinationWithin ops target hops target.toNat = destination ops target := by
  intro threaded
  have h : Threading ops ops.size threaded := threading ops hsize
  have hthreaded : threaded.size < 4294967296 := h.size ▸ hsize
  refine ⟨h.size, fun addr op ho => ?_, ?_, fun target => ⟨fun last hrest => ?_, fun hops hle => ?_⟩⟩
  · obtain ⟨op', ho', hresolves⟩ := h.before addr op (Array.getElem?_eq_some_iff.mp ho).1 ho
    refine ⟨fun hnone => ?_, fun target ht => ⟨fun last hrest => ?_, fun hno => ?_⟩⟩
    · rw [ho', hresolves.stays fun target last ht => by rw [hnone] at ht; cases ht]
    · obtain ⟨target', hop', hl⟩ := hresolves.lands target last ht hrest
      exact ⟨op', target', ho', hop', h.nextLive? ▸ hl⟩
    · rw [ho', hresolves.stays fun target' last ht' hrest => ?_]
      rw [ht] at ht'
      cases ht'
      rcases hno with hoff | hforever
      · cases hoff.unique hrest
      · exact diverges_iff_not_ends.mp hforever _ hrest
  · exact threadJumps_of_direct hthreaded (direct_threadJumps hsize)
  · rw [destination_of_restsAt hrest, toNat_toUInt32 (RestsAt.lt_size hrest |>.trans hsize)]
  · by_cases hrest : ∃ last, RestsAt ops target.toNat last
    · obtain ⟨last, steps, hsteps⟩ := hrest
      rw [destination_of_restsAt ⟨steps, hsteps⟩]
      exact destinationWithin_of_endsIn hsteps ((steps_le_size hsteps).trans hle)
    · rw [destinationWithin_of_not_restsAt (not_exists.mp hrest)]
      exact (destinationWithin_of_not_restsAt (not_exists.mp hrest)).symm

/-- The first transfer gets to the constant by two jumps and over an empty operation, the one behind it into a circle
of two jumps. -/
theorem threadJumps_exact_circle :
    let ops : Array Op := #[.jumpIf 4, .jumpIf 6, .push 9, .exit, .jump 5, .jump 8, .jump 7, .jump 6, .nop, .jump 2]
    let threaded := (threadJumps ops).1
    ops.size < 4294967296 ∧ Ends (walk ops) 4 (some 2) ∧ Diverges (walk ops) 6 ∧
      (∃ target : Addr, threaded[0]? = some (.jumpIf target) ∧ nextLive? threaded target.toNat = some 2) ∧
      threaded[1]? = some (.jumpIf 6) ∧ threadJumps threaded = (threaded, 0) := by
  intro ops threaded
  have hsize : ops.size < 4294967296 := by decide
  have hrest : Ends (walk ops) 4 (some 2) := ⟨5, .next rfl (.next rfl (.next rfl (.next rfl (.stop rfl))))⟩
  have hforever : Diverges (walk ops) 6 := by
    intro addr hpath
    have hcircle : addr = 6 ∨ addr = 7 := by
      induction hpath with
      | refl => exact .inl rfl
      | tail _ hmove ih =>
          rcases ih with rfl | rfl
          · cases hmove
            exact .inr rfl
          · cases hmove
            exact .inl rfl
    rcases hcircle with rfl | rfl
    · exact ⟨7, rfl⟩
    · exact ⟨6, rfl⟩
  obtain ⟨-, hops, hagain, -⟩ := threadJumps_exact ops hsize
  refine ⟨hsize, hrest, hforever, ?_, ?_, hagain⟩
  · obtain ⟨op', target, ho, hop', hl⟩ := ((hops 0 _ rfl).2 4 rfl).1 2 hrest
    cases hop'
    exact ⟨target, ho, hl⟩
  · exact ((hops 1 _ rfl).2 6 rfl).2 (.inr hforever)

end Op

end GotoLang
