import Mathlib.Data.List.Perm.Subperm
import Mathlib.Data.Nat.Init
import Mathlib.Logic.Relation
import Mathlib.Order.Nat

/-!
# Executions and meeting points

A deterministic machine is given by what one step leads to: another state, or a result. An execution
either ends with a result after finitely many steps or goes on forever.

Two machines are compared through pairs of states at which they meet. From every such pair both
executions end with results that are alike, or both go on, each in at least one step, to another such
pair. Then one of them ends if and only if the other one does. How many steps each of them takes
between two meetings does not matter.
-/
namespace GotoLang

/-- What one step leads to. -/
inductive Transition (σ ρ : Type) where
  | next (state : σ)
  | stop (result : ρ)

variable {σ τ ρ π : Type}

/-- One step leads from a state to another. -/
def Moves (step : σ → Transition σ ρ) (s t : σ) : Prop :=
  step s = .next t

/-- So many steps from a state lead to a result. -/
inductive EndsIn (step : σ → Transition σ ρ) : Nat → σ → ρ → Prop
  | stop {s : σ} {r : ρ} : step s = .stop r → EndsIn step 1 s r
  | next {s t : σ} {r : ρ} {n : Nat} : Moves step s t → EndsIn step n t r → EndsIn step (n + 1) s r

/-- Finitely many steps from a state lead to a result. -/
def Ends (step : σ → Transition σ ρ) (s : σ) (r : ρ) : Prop :=
  ∃ n, EndsIn step n s r

/-- However many steps are made from a state, another one can be made. -/
def Diverges (step : σ → Transition σ ρ) (s : σ) : Prop :=
  ∀ t, Relation.ReflTransGen (Moves step) s t → ∃ u, Moves step t u

section
variable {step : σ → Transition σ ρ}

theorem Moves.unique {s t u : σ} (ht : Moves step s t) (hu : Moves step s u) : t = u := by
  have h : (Transition.next t : Transition σ ρ) = .next u := ht.symm.trans hu
  cases h
  rfl

theorem EndsIn.of_moves {s t : σ} {r : ρ} {n : Nat} (hr : EndsIn step n s r)
    (ht : Moves step s t) : ∃ m, n = m + 1 ∧ EndsIn step m t r := by
  cases hr with
  | stop hs => rw [Moves, hs] at ht; cases ht
  | next hu hr =>
      obtain rfl := hu.unique ht
      exact ⟨_, rfl, hr⟩

/-- Steps that were made are no longer to be made. -/
theorem EndsIn.after {s t : σ} {r : ρ} {n : Nat} (hr : EndsIn step n s r)
    (ht : Relation.TransGen (Moves step) s t) : ∃ m < n, EndsIn step m t r := by
  induction ht with
  | single h =>
      obtain ⟨m, rfl, hm⟩ := hr.of_moves h
      exact ⟨m, Nat.lt_succ_self m, hm⟩
  | tail _ h ih =>
      obtain ⟨m, hmn, hm⟩ := ih
      obtain ⟨k, rfl, hk⟩ := hm.of_moves h
      exact ⟨k, by omega, hk⟩

theorem EndsIn.along {s t : σ} {r : ρ} {n : Nat} (hr : EndsIn step n s r)
    (ht : Relation.ReflTransGen (Moves step) s t) : ∃ m ≤ n, EndsIn step m t r := by
  rcases Relation.reflTransGen_iff_eq_or_transGen.mp ht with rfl | ht
  · exact ⟨n, le_rfl, hr⟩
  · obtain ⟨m, hmn, hm⟩ := hr.after ht
    exact ⟨m, hmn.le, hm⟩

/-- An execution that ends never comes back to a state. -/
theorem EndsIn.no_return {s : σ} {r : ρ} {n : Nat} (hr : EndsIn step n s r) :
    ¬ Relation.TransGen (Moves step) s s := by
  intro hback
  induction n using Nat.strongRecOn with
  | ind n ih =>
      obtain ⟨m, hmn, hm⟩ := hr.after hback
      exact ih m hmn hm

/-- The states that an execution passes until it ends: as many as steps, and all of them different. -/
theorem EndsIn.passed {s : σ} {r : ρ} {n : Nat} (hr : EndsIn step n s r) :
    ∃ states : List σ, states.length = n ∧ states.Nodup ∧
      ∀ t ∈ states, Relation.ReflTransGen (Moves step) s t := by
  induction hr with
  | @stop s r hs =>
      refine ⟨[s], rfl, List.pairwise_singleton _ s, fun t ht => ?_⟩
      rw [List.mem_singleton.mp ht]
  | @next s t r n h hr ih =>
      obtain ⟨states, hlength, hnodup, hpassed⟩ := ih
      refine ⟨s :: states, congrArg (· + 1) hlength, List.nodup_cons.mpr ⟨fun hs => ?_, hnodup⟩, ?_⟩
      · exact EndsIn.no_return (.next h hr) (.head' h (hpassed s hs))
      · intro u hu
        rcases List.mem_cons.mp hu with rfl | hu
        · exact .refl
        · exact .head h (hpassed u hu)

/-- An execution that ends within these states takes at most as many steps. -/
theorem EndsIn.le_length {s : σ} {r : ρ} {n : Nat} (hr : EndsIn step n s r) {states : List σ}
    (hstates : ∀ t, Relation.ReflTransGen (Moves step) s t → t ∈ states) : n ≤ states.length := by
  obtain ⟨passed, rfl, hnodup, hpassed⟩ := hr.passed
  exact (List.subperm_of_subset hnodup fun t ht => hstates t (hpassed t ht)).length_le

/-- Steps that lower a measure come to an end, one step after the measure cannot get lower. -/
theorem exists_endsIn_of_measure (measure : σ → Nat) {Inv : σ → Prop}
    (hlower : ∀ s t, Inv s → Moves step s t → Inv t ∧ measure t < measure s) {s : σ} (hs : Inv s) :
    ∃ r, ∃ n ≤ measure s + 1, EndsIn step n s r := by
  induction hm : measure s using Nat.strongRecOn generalizing s with
  | ind m ih =>
      cases hstep : step s with
      | stop r => exact ⟨r, 1, Nat.le_add_left 1 m, .stop hstep⟩
      | next t =>
          obtain ⟨ht, hlt⟩ := hlower s t hs hstep
          obtain ⟨r, n, hn, hr⟩ := ih (measure t) (hm ▸ hlt) ht rfl
          exact ⟨r, n + 1, by omega, .next hstep hr⟩

theorem Ends.stop {s : σ} {r : ρ} (h : step s = .stop r) : Ends step s r :=
  ⟨1, .stop h⟩

theorem Ends.along {s t : σ} {r : ρ} (hr : Ends step s r)
    (ht : Relation.ReflTransGen (Moves step) s t) : Ends step t r := by
  obtain ⟨n, hr⟩ := hr
  obtain ⟨m, -, hm⟩ := hr.along ht
  exact ⟨m, hm⟩

theorem Ends.before {s t : σ} {r : ρ} (ht : Relation.ReflTransGen (Moves step) s t)
    (hr : Ends step t r) : Ends step s r := by
  induction ht using Relation.ReflTransGen.head_induction_on with
  | refl => exact hr
  | head h _ ih =>
      obtain ⟨n, hn⟩ := ih
      exact ⟨n + 1, .next h hn⟩

theorem Ends.unique {s : σ} {r q : ρ} (hr : Ends step s r) (hq : Ends step s q) : r = q := by
  obtain ⟨n, hr⟩ := hr
  obtain ⟨m, hq⟩ := hq
  induction hr generalizing m with
  | stop hs =>
      cases hq with
      | stop hs' => rw [hs] at hs'; cases hs'; rfl
      | next h => rw [Moves, hs] at h; cases h
  | next h _ ih =>
      obtain ⟨k, rfl, hk⟩ := hq.of_moves h
      exact ih k hk

/-- An execution that does not end goes on forever. -/
theorem diverges_iff_not_ends {s : σ} : Diverges step s ↔ ∀ r, ¬ Ends step s r := by
  constructor
  · rintro hd r ⟨n, hr⟩
    induction hr with
    | stop hs =>
        obtain ⟨u, hu⟩ := hd _ .refl
        rw [Moves, hs] at hu
        cases hu
    | next h _ ih => exact ih fun t ht => hd t (.head h ht)
  · intro h t ht
    cases hs : step t with
    | next u => exact ⟨u, hs⟩
    | stop r => exact absurd (Ends.before ht (.stop hs)) (h r)

theorem Diverges.before {s t : σ} (ht : Relation.ReflTransGen (Moves step) s t)
    (hd : Diverges step t) : Diverges step s := by
  rw [diverges_iff_not_ends] at hd ⊢
  intro r hr
  obtain ⟨n, hn⟩ := hr
  rcases Relation.reflTransGen_iff_eq_or_transGen.mp ht with rfl | ht
  · exact hd r ⟨n, hn⟩
  · obtain ⟨m, -, hm⟩ := hn.after ht
    exact hd r ⟨m, hm⟩

end

/-- At every pair of related states the first machine ends and the second one gets to a state that
tells of the result, or both go on to such a pair. What the second machine does afterwards is left open. -/
def Following (stepS : σ → Transition σ ρ) (stepT : τ → Transition τ π) (tells : ρ → τ → Prop)
    (R : σ → τ → Prop) : Prop :=
  ∀ s t, R s t →
    (∃ r t', Ends stepS s r ∧ Relation.ReflTransGen (Moves stepT) t t' ∧ tells r t') ∨
    ∃ s' t', Relation.TransGen (Moves stepS) s s' ∧ Relation.TransGen (Moves stepT) t t' ∧ R s' t'

namespace Following
variable {stepS : σ → Transition σ ρ} {stepT : τ → Transition τ π} {tells : ρ → τ → Prop}
variable {R : σ → τ → Prop}

theorem ends (h : Following stepS stepT tells R) {s : σ} {t : τ} {r : ρ} (hst : R s t)
    (hr : Ends stepS s r) : ∃ t', Relation.ReflTransGen (Moves stepT) t t' ∧ tells r t' := by
  obtain ⟨n, hr⟩ := hr
  -- The steps that are left get fewer from one pair to the next.
  induction n using Nat.strongRecOn generalizing s t with
  | ind n ih =>
      rcases h s t hst with ⟨r', t', hr', ht', htells⟩ | ⟨s', t', hs, ht, hst'⟩
      · obtain rfl := hr'.unique ⟨n, hr⟩
        exact ⟨t', ht', htells⟩
      · obtain ⟨m, hm, hr'⟩ := hr.after hs
        obtain ⟨t'', ht'', htells⟩ := ih m hm hst' hr'
        exact ⟨t'', ht.to_reflTransGen.trans ht'', htells⟩

/-- Wherever the second machine gets, it goes on to a state that is related to one of the first. -/
theorem catches (h : Following stepS stepT tells R) {s : σ} {t u : τ} (hst : R s t)
    (hs : Diverges stepS s) (hu : Relation.ReflTransGen (Moves stepT) t u) :
    ∃ s' t', Relation.ReflTransGen (Moves stepS) s s' ∧
      Relation.TransGen (Moves stepT) u t' ∧ R s' t' := by
  -- From a related pair the first machine does not end, so both go on.
  have hnext : ∀ s' t', Relation.ReflTransGen (Moves stepS) s s' → R s' t' →
      ∃ s'' t'', Relation.ReflTransGen (Moves stepS) s s'' ∧
        Relation.TransGen (Moves stepT) t' t'' ∧ R s'' t'' := by
    intro s' t' hs' hst'
    rcases h s' t' hst' with ⟨r, _, hr, -⟩ | ⟨s'', t'', hs'', ht'', hst''⟩
    · exact absurd (hr.before hs') (diverges_iff_not_ends.mp hs r)
    · exact ⟨s'', t'', hs'.trans hs''.to_reflTransGen, ht'', hst''⟩
  induction hu with
  | refl => exact hnext s t .refl hst
  | tail _ hv ih =>
      obtain ⟨s', t', hs', ht', hst'⟩ := ih
      obtain ⟨v, hmove, hrest⟩ := Relation.TransGen.head'_iff.mp ht'
      obtain rfl := hv.unique hmove
      rcases Relation.reflTransGen_iff_eq_or_transGen.mp hrest with rfl | hrest
      · exact hnext s' _ hs' hst'
      · exact ⟨s', t', hs', hrest, hst'⟩

theorem diverges (h : Following stepS stepT tells R) {s : σ} {t : τ} (hst : R s t)
    (hs : Diverges stepS s) : Diverges stepT t := by
  intro u hu
  obtain ⟨_, t', -, ht', -⟩ := h.catches hst hs hu
  obtain ⟨v, hv, -⟩ := Relation.TransGen.head'_iff.mp ht'
  exact ⟨v, hv⟩

end Following

/-- At every pair of related states both machines end alike, or both go on to such a pair. -/
def Meeting (stepS : σ → Transition σ ρ) (stepT : τ → Transition τ π) (alike : ρ → π → Prop)
    (R : σ → τ → Prop) : Prop :=
  ∀ s t, R s t →
    (∃ r q, Ends stepS s r ∧ Ends stepT t q ∧ alike r q) ∨
    ∃ s' t', Relation.TransGen (Moves stepS) s s' ∧ Relation.TransGen (Moves stepT) t t' ∧ R s' t'

namespace Meeting
variable {stepS : σ → Transition σ ρ} {stepT : τ → Transition τ π} {alike : ρ → π → Prop}
variable {R : σ → τ → Prop}

theorem swap (h : Meeting stepS stepT alike R) :
    Meeting stepT stepS (fun q r => alike r q) fun t s => R s t := by
  intro t s hst
  rcases h s t hst with ⟨r, q, hr, hq, ha⟩ | ⟨s', t', hs, ht, hst'⟩
  · exact .inl ⟨q, r, hq, hr, ha⟩
  · exact .inr ⟨t', s', ht, hs, hst'⟩

theorem following (h : Meeting stepS stepT alike R) :
    Following stepS stepT (fun r t => ∃ q, Ends stepT t q ∧ alike r q) R := by
  intro s t hst
  rcases h s t hst with ⟨r, q, hr, hq, ha⟩ | hnext
  · exact .inl ⟨r, t, hr, .refl, q, hq, ha⟩
  · exact .inr hnext

theorem ends (h : Meeting stepS stepT alike R) {s : σ} {t : τ} {r : ρ} (hst : R s t)
    (hr : Ends stepS s r) : ∃ q, Ends stepT t q ∧ alike r q := by
  obtain ⟨t', ht', q, hq, ha⟩ := h.following.ends hst hr
  exact ⟨q, hq.before ht', ha⟩

theorem ends_iff (h : Meeting stepS stepT alike R) {s : σ} {t : τ} (hst : R s t) :
    (∃ r, Ends stepS s r) ↔ ∃ q, Ends stepT t q := by
  constructor
  · rintro ⟨r, hr⟩
    obtain ⟨q, hq, _⟩ := h.ends hst hr
    exact ⟨q, hq⟩
  · rintro ⟨q, hq⟩
    obtain ⟨r, hr, _⟩ := h.swap.ends hst hq
    exact ⟨r, hr⟩

theorem diverges_iff (h : Meeting stepS stepT alike R) {s : σ} {t : τ} (hst : R s t) :
    Diverges stepS s ↔ Diverges stepT t := by
  rw [diverges_iff_not_ends, diverges_iff_not_ends, ← not_exists, ← not_exists, h.ends_iff hst]

end Meeting

end GotoLang
