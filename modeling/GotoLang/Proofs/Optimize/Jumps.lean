import GotoLang.Proofs.Optimize.SameRuns

/-!
# Shortened and dropped jumps

A transfer is only sent to where a silent path from its old target leads, and a jump is only dropped
where silent paths from its target and from the next operation lead to the same place. So neither
changes what a machine does. The search for the end of a path is bounded, and one that fails leaves the
transfer as it is.
-/
namespace GotoLang

namespace Jumps

/-- A sweep over all addresses keeps what each single change keeps. -/
theorem sweep_induction {change? : Array Op → Nat → Option (Array Op)}
    {P : Array Op → Prop} {ops : Array Op} (start : P ops)
    (change : ∀ {ops ops' : Array Op} {addr : Nat}, P ops → change? ops addr = some ops' → P ops') :
    P (sweep change? ops).1 := by
  rw [sweep]
  refine List.foldlRecOn (motive := fun state : Array Op × Nat => P state.1) _ _ start ?_
  intro state h addr _
  cases hc : change? state.1 addr with
  | none => simpa only [hc] using h
  | some ops' => simpa only [hc] using change h hc

theorem foldl_range_induction {σ : Type} {f : σ → Nat → σ} {s : σ} {P : Nat → σ → Prop} {n : Nat}
    (start : P 0 s) (step : ∀ k t, k < n → P k t → P (k + 1) (f t k)) : P n ((List.range n).foldl f s) := by
  induction n with
  | zero => exact start
  | succ n ih =>
      rw [List.range_succ, List.foldl_append]
      exact step n _ (Nat.lt_succ_self n) (ih fun k t hk => step k t (by omega))

/-- What holds at each address, of the operations and of the number of changes by then, holds in the end. -/
theorem sweep_positions {change? : Array Op → Nat → Option (Array Op)}
    {P : Nat → Array Op → Nat → Prop} {ops : Array Op} (start : P 0 ops 0)
    (change : ∀ {addr now count new}, addr < ops.size → P addr now count → change? now addr = some new →
      P (addr + 1) new (count + 1))
    (keep : ∀ {addr now count}, addr < ops.size → P addr now count → change? now addr = none →
      P (addr + 1) now count) :
    P ops.size (sweep change? ops).1 (sweep change? ops).2 := by
  unfold sweep
  refine foldl_range_induction (P := fun addr (state : Array Op × Nat) => P addr state.1 state.2) start ?_
  intro addr state hlt h
  cases hc : change? state.1 addr with
  | none => simpa only [hc] using keep hlt h hc
  | some new => simpa only [hc] using change hlt h hc

theorem sweep_of_none {change? : Array Op → Nat → Option (Array Op)} {ops : Array Op}
    (h : ∀ addr < ops.size, change? ops addr = none) : sweep change? ops = (ops, 0) := by
  have hkept := @sweep_positions change? (fun _ now count => now = ops ∧ count = 0) ops
    ⟨rfl, rfl⟩ (fun hlt hsame hc => by rw [hsame.1, h _ hlt] at hc; cases hc) fun _ hsame _ => hsame
  exact Prod.ext hkept.1 hkept.2

/-- A sweep that counts nothing changed nothing, and there is nothing to change. -/
theorem sweep_eq_zero {change? : Array Op → Nat → Option (Array Op)} {ops : Array Op}
    (h : (sweep change? ops).2 = 0) :
    sweep change? ops = (ops, 0) ∧ ∀ addr < ops.size, change? ops addr = none := by
  have hkept := @sweep_positions change? (fun addr now count => count = 0 →
      now = ops ∧ ∀ before < addr, change? ops before = none) ops
    (fun _ => ⟨rfl, fun _ hlt => absurd hlt (Nat.not_lt_zero _)⟩)
    (fun _ _ _ hzero => absurd hzero (Nat.succ_ne_zero _))
    (fun _ hsame hc hzero => by
      obtain ⟨rfl, hnone⟩ := hsame hzero
      refine ⟨rfl, fun before hlt => ?_⟩
      rcases Nat.lt_succ_iff_lt_or_eq.mp hlt with hlt | rfl
      · exact hnone before hlt
      · exact hc)
  exact ⟨Prod.ext (hkept h).1 h, (hkept h).2⟩

/-- The search answers with its default or with a place that the path leads to. -/
theorem destinationWithin_leads {ops : Array Op} (hsize : ops.size < 4294967296) {target : Addr}
    {hops current : Nat} (h : destinationWithin ops target hops current ≠ target) :
    Op.Leads ops current (destinationWithin ops target hops current).toNat := by
  induction hops generalizing current with
  | zero => exact absurd rfl h
  | succ hops ih =>
      rw [destinationWithin] at h ⊢
      cases hl : Op.nextLive? ops current with
      | none => simp [hl] at h
      | some live =>
          have hlive : live.toUInt32.toNat = live := by
            have := (Op.nextLive?_eq_some.mp hl).2.1
            rw [Nat.toUInt32_eq, UInt32.toNat_ofNat']
            omega
          simp only [hl] at h ⊢
          split at h
          · next next hj =>
              split at h
              · next hne =>
                  rw [if_pos hne]
                  exact (Op.nextLive?_leads hl).trans (.jump hj (ih h))
              · next heq =>
                  rw [if_neg heq, hlive]
                  exact Op.nextLive?_leads hl
          · rw [hlive]
            exact Op.nextLive?_leads hl

/-- One transfer gets a new target, which a silent path from the old one leads to. -/
def Thread (ops ops' : Array Op) : Prop :=
  ∃ addr op target final op', ops[addr]? = some op ∧ op.target? = some target ∧
    op.retarget? final = some op' ∧ Op.Leads ops target.toNat final.toNat ∧
    ops' = ops.setIfInBounds addr op'

/-- One jump is dropped, whose target and next operation silently lead to one place. -/
def Bypass (ops ops' : Array Op) : Prop :=
  ∃ addr target next, ops[addr]? = some (.jump target) ∧ Op.nextLive? ops (addr + 1) = some next ∧
    Op.nextLive? ops target.toNat = some next ∧ ops' = ops.setIfInBounds addr .nop

theorem Thread.size {ops ops' : Array Op} (h : Thread ops ops') : ops'.size = ops.size := by
  obtain ⟨_, _, _, _, _, _, _, _, _, rfl⟩ := h
  exact Array.size_setIfInBounds

theorem Bypass.size {ops ops' : Array Op} (h : Bypass ops ops') : ops'.size = ops.size := by
  obtain ⟨_, _, _, _, _, _, rfl⟩ := h
  exact Array.size_setIfInBounds

theorem thread_of_threadAt? {ops ops' : Array Op} {addr : Nat} (hsize : ops.size < 4294967296)
    (h : threadAt? ops addr = some ops') : Thread ops ops' := by
  simp only [threadAt?, Option.bind_eq_bind, Option.bind_eq_some_iff] at h
  obtain ⟨op, ho, target, ht, h⟩ := h
  split at h
  · next hc =>
      obtain ⟨op', hop', h⟩ := Option.bind_eq_some_iff.mp h
      cases h
      exact ⟨addr, op, target, _, op', ho, ht, hop', destinationWithin_leads hsize hc.1, rfl⟩
  · cases h

theorem Thread.sameRuns {ops ops' : Array Op} (h : Thread ops ops') : SameRuns ops ops' := by
  obtain ⟨addr, op, target, final, op', ho, ht, hop', hl, rfl⟩ := h
  have haddr : addr < ops.size := (Array.getElem?_eq_some_iff.mp ho).1
  have ho' : (ops.setIfInBounds addr op')[addr]? = some op' :=
    Array.getElem?_setIfInBounds_self_of_lt haddr
  refine SameRuns.of_meeting_points (fun _ => True) trivial fun m _ => ?_
  by_cases hm : m.pc = addr
  · subst hm
    cases op with
    | jump target' =>
        cases ht
        cases hop'
        refine .inr ⟨m.withPc final.toNat, trivial, ?_, .single (Machine.moves_jump ho')⟩
        exact .head' (Machine.moves_jump ho) (hl.reaches (m := m.withPc target.toNat) rfl)
    | jumpIf target' =>
        cases ht
        cases hop'
        cases hs : m.stack with
        | nil =>
            refine .inl ⟨?_, fun _ _ => trivial⟩
            rw [Machine.step_of_get ho, Machine.step_of_get ho']
            simp only [Machine.perform, Machine.withPc, hs]
        | cons value rest =>
            have hmove := Machine.moves_jumpIf ho hs
            have hmove' := Machine.moves_jumpIf ho' hs
            by_cases hv : (value != 0) = true
            · simp only [hv, if_true] at hmove hmove'
              exact .inr ⟨_, trivial, .head' hmove (hl.reaches rfl), .single hmove'⟩
            · simp only [hv] at hmove hmove'
              exact .inr ⟨_, trivial, .single hmove, .single hmove'⟩
    | _ => cases ht
  · refine .inl ⟨Machine.step_congr ?_, fun _ _ => trivial⟩
    rw [Array.getElem?_setIfInBounds_ne (Ne.symm hm)]

theorem bypass_of_bypassAt? {ops ops' : Array Op} {addr : Nat}
    (h : bypassAt? ops addr = some ops') : Bypass ops ops' := by
  simp only [bypassAt?, Option.bind_eq_bind, Option.bind_eq_some_iff] at h
  obtain ⟨op, ho, h⟩ := h
  split at h
  · obtain ⟨next, hn, h⟩ := Option.bind_eq_some_iff.mp h
    split at h
    · next ht =>
        cases h
        exact ⟨addr, _, next, ho, hn, ht, rfl⟩
    · cases h
  · cases h

theorem bypassAt?_eq_some {ops : Array Op} {addr next : Nat} {target : Addr}
    (ho : ops[addr]? = some (.jump target)) (hn : Op.nextLive? ops (addr + 1) = some next)
    (ht : Op.nextLive? ops target.toNat = some next) :
    bypassAt? ops addr = some (ops.setIfInBounds addr .nop) := by
  simp [bypassAt?, ho, hn, ht]

theorem Bypass.sameRuns {ops ops' : Array Op} (h : Bypass ops ops') : SameRuns ops ops' := by
  obtain ⟨addr, target, next, ho, hn, ht, rfl⟩ := h
  have haddr : addr < ops.size := (Array.getElem?_eq_some_iff.mp ho).1
  have ho' : (ops.setIfInBounds addr .nop)[addr]? = some .nop :=
    Array.getElem?_setIfInBounds_self_of_lt haddr
  have hn' : Op.Leads (ops.setIfInBounds addr .nop) (addr + 1) next := by
    obtain ⟨hle, -, -, hnops⟩ := Op.nextLive?_eq_some.mp hn
    refine Op.Nops.leads (fun x hx hlt => ?_) hle
    rw [Array.getElem?_setIfInBounds_ne (by omega)]
    exact hnops x hx hlt
  refine SameRuns.of_meeting_points (fun _ => True) trivial fun m _ => ?_
  by_cases hm : m.pc = addr
  · subst hm
    refine .inr ⟨m.withPc next, trivial, ?_, ?_⟩
    · exact .head' (Machine.moves_jump ho)
        ((Op.nextLive?_leads ht).reaches (m := m.withPc target.toNat) rfl)
    · exact .head' (Machine.moves_nop ho') (hn'.reaches (m := m.withPc (m.pc + 1)) rfl)
  · refine .inl ⟨Machine.step_congr ?_, fun _ _ => trivial⟩
    rw [Array.getElem?_setIfInBounds_ne (Ne.symm hm)]

end Jumps

theorem Op.steps_threadJumps {ops : Array Op} (hsize : ops.size < 4294967296) :
    Relation.ReflTransGen Jumps.Thread ops (threadJumps ops).1 := by
  suffices h : (threadJumps ops).1.size = ops.size ∧
      Relation.ReflTransGen Jumps.Thread ops (threadJumps ops).1 from h.2
  apply Jumps.sweep_induction
    (P := fun ops' => ops'.size = ops.size ∧ Relation.ReflTransGen Jumps.Thread ops ops')
  · exact ⟨rfl, .refl⟩
  · intro ops₁ ops₂ addr h hc
    have hstep := Jumps.thread_of_threadAt? (h.1 ▸ hsize) hc
    exact ⟨hstep.size.trans h.1, h.2.tail hstep⟩

theorem Op.steps_bypassJumps (ops : Array Op) :
    Relation.ReflTransGen Jumps.Bypass ops (bypassJumps ops).1 := by
  apply Jumps.sweep_induction (P := fun ops' => Relation.ReflTransGen Jumps.Bypass ops ops')
  · exact .refl
  · intro ops₁ ops₂ addr h hc
    exact h.tail (Jumps.bypass_of_bypassAt? hc)

end GotoLang
