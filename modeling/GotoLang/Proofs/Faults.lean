import Mathlib.Order.Defs.Unbundled

/-!
# Computations that can fail

A computation that consists of several succeeds if each of them does. There are two kinds of them here: those
that have a result or a fault, and those that leave a state in both cases.
-/
namespace GotoLang

section
variable {ε α β : Type}

theorem except_bind_eq_ok {x : Except ε α} {f : α → Except ε β} {b : β} :
    (x >>= f) = .ok b ↔ ∃ a, x = .ok a ∧ f a = .ok b := by
  cases x with
  | error e => simp [bind, Except.bind]
  | ok a => simp [bind, Except.bind]

theorem mapError_eq_ok {δ : Type} {g : ε → δ} {x : Except ε α} {a : α} : x.mapError g = .ok a ↔ x = .ok a := by
  constructor
  · intro h
    cases x with
    | error e => cases h
    | ok b =>
        cases h
        rfl
  · rintro rfl
    rfl

theorem exists_ok_of_any {x : Except ε α} {p : α → Bool} (h : x.toOption.any p = true) :
    ∃ a, x = .ok a ∧ p a = true := by
  cases x with
  | error e => cases h
  | ok a => exact ⟨a, rfl, h⟩

variable {f : α → Except ε β}

theorem mapM_cons_eq_ok {x : α} {xs : List α} {ys : List β} (h : (x :: xs).mapM f = .ok ys) :
    ∃ y rest, f x = .ok y ∧ xs.mapM f = .ok rest ∧ ys = y :: rest := by
  rw [List.mapM_cons] at h
  obtain ⟨y, hy, h⟩ := except_bind_eq_ok.mp h
  obtain ⟨rest, hrest, h⟩ := except_bind_eq_ok.mp h
  cases h
  exact ⟨y, rest, hy, hrest, rfl⟩

theorem mapM_eq_ok {xs : List α} {ys : List β} (h : xs.mapM f = .ok ys) : xs.map f = ys.map .ok := by
  induction xs generalizing ys with
  | nil =>
      cases h
      rfl
  | cons x xs ih =>
      obtain ⟨y, rest, hy, hrest, rfl⟩ := mapM_cons_eq_ok h
      rw [List.map_cons, List.map_cons, hy, ih hrest]

theorem exists_mapM {xs : List α} (h : ∀ x ∈ xs, ∃ y, f x = .ok y) : ∃ ys, xs.mapM f = .ok ys := by
  induction xs with
  | nil => exact ⟨[], rfl⟩
  | cons x xs ih =>
      obtain ⟨y, hy⟩ := h x List.mem_cons_self
      obtain ⟨ys, hys⟩ := ih fun x hx => h x (List.mem_cons_of_mem _ hx)
      refine ⟨y :: ys, ?_⟩
      rw [List.mapM_cons, hy, hys]
      rfl

/-- A check of many stops at the first that fails. -/
theorem mapM_eq_error_iff {xs : List α} {e : ε} :
    xs.mapM f = .error e ↔ ∃ before x behind, xs = before ++ x :: behind ∧ f x = .error e ∧
      ∀ y ∈ before, ∃ b, f y = .ok b := by
  induction xs with
  | nil => simp [pure, Except.pure]
  | cons x xs ih =>
      rw [List.mapM_cons]
      constructor
      · intro h
        cases hx : f x with
        | error e' =>
            rw [hx] at h
            cases h
            exact ⟨[], x, xs, rfl, hx, by simp⟩
        | ok b =>
            cases hxs : xs.mapM f with
            | ok bs =>
                rw [hx, hxs] at h
                cases h
            | error e' =>
                rw [hx, hxs] at h
                cases h
                obtain ⟨before, y, behind, rfl, hy, hbefore⟩ := ih.mp hxs
                refine ⟨x :: before, y, behind, rfl, hy, ?_⟩
                simpa [hx] using hbefore
      · rintro ⟨before, y, behind, hsplit, hy, hbefore⟩
        cases before with
        | nil =>
            obtain ⟨rfl, rfl⟩ := List.cons.inj hsplit
            rw [hy]
            rfl
        | cons z before =>
            obtain ⟨rfl, rfl⟩ := List.cons.inj hsplit
            obtain ⟨b, hb⟩ := hbefore x List.mem_cons_self
            have hrest := ih.mpr ⟨before, y, behind, rfl, hy, fun a ha =>
              hbefore a (List.mem_cons_of_mem _ ha)⟩
            rw [hb, hrest]
            rfl

end

section
variable {ε σ α β : Type} {x : EStateM ε σ α} {f : α → EStateM ε σ β} {s s' : σ}

theorem get_bind (g : σ → EStateM ε σ β) : (get >>= g) s = g s s :=
  rfl

theorem modifyGet_apply (change : σ → α × σ) :
    (modifyGet change : EStateM ε σ α) s = .ok (change s).1 (change s).2 :=
  rfl

theorem bind_of_ok {a : α} (h : x s = .ok a s') : (x >>= f) s = f a s' := by
  change EStateM.bind x f s = _
  rw [EStateM.bind, h]

theorem bind_of_error {e : ε} (h : x s = .error e s') : (x >>= f) s = .error e s' := by
  change EStateM.bind x f s = _
  rw [EStateM.bind, h]

theorem bind_eq_ok {s'' : σ} {b : β} :
    (x >>= f) s = .ok b s'' ↔ ∃ a s', x s = .ok a s' ∧ f a s' = .ok b s'' := by
  cases hx : x s with
  | ok a s' =>
      rw [bind_of_ok hx]
      constructor
      · intro h
        exact ⟨a, s', rfl, h⟩
      · rintro ⟨a', t, ha, h⟩
        cases ha
        exact h
  | error e s' => simp [bind_of_error hx]

theorem bind_eq_error {e : ε} {s'' : σ} :
    (x >>= f) s = .error e s'' ↔ x s = .error e s'' ∨ ∃ a s', x s = .ok a s' ∧ f a s' = .error e s'' := by
  cases hx : x s with
  | ok a s' =>
      rw [bind_of_ok hx]
      constructor
      · intro h
        exact .inr ⟨a, s', rfl, h⟩
      · rintro (h | ⟨a', t, ha, h⟩)
        · cases h
        · cases ha
          exact h
  | error e s' => simp [bind_of_error hx]

theorem discard_eq_ok {u : Unit} : (discard x) s = .ok u s' ↔ ∃ a, x s = .ok a s' := by
  change EStateM.map _ x s = _ ↔ _
  unfold EStateM.map
  cases x s <;> simp

theorem check_eq_ok {cond : Prop} [Decidable cond] {e : ε} {u : PUnit}
    (h : (if cond then throw e else pure ⟨⟩ : EStateM ε σ PUnit) s = .ok u s') : ¬ cond ∧ s' = s := by
  split at h
  · cases h
  · next hcond =>
      cases h
      exact ⟨hcond, rfl⟩

/-- Whether it fails or not, an action leaves a state that is related to the one before. -/
structure Along (related : σ → σ → Prop) (action : EStateM ε σ α) : Prop where
  ok : ∀ {s a s'}, action s = .ok a s' → related s s'
  error : ∀ {s e s'}, action s = .error e s' → related s s'

theorem along_modifyGet {related : σ → σ → Prop} {change : σ → α × σ} (h : ∀ s, related s (change s).2) :
    Along related (modifyGet change : EStateM ε σ α) := by
  constructor
  · intro s a s' hrun
    cases hrun
    exact h s
  · intro s e s' hrun
    cases hrun

theorem along_modify {related : σ → σ → Prop} {change : σ → σ} (h : ∀ s, related s (change s)) :
    Along related (modify change : EStateM ε σ PUnit) :=
  along_modifyGet h

variable {related : σ → σ → Prop} [IsPreorder σ related]

theorem along_pure (a : α) : Along related (pure a : EStateM ε σ α) := by
  constructor
  · intro s a' s' h
    cases h
    exact refl_of related s
  · intro s e s' h
    cases h

theorem along_throw (e : ε) : Along related (throw e : EStateM ε σ α) := by
  constructor
  · intro s a s' h
    cases h
  · intro s e' s' h
    cases h
    exact refl_of related s

theorem along_get : Along related (get : EStateM ε σ σ) := by
  constructor
  · intro s t s' h
    cases h
    exact refl_of related s
  · intro s e s' h
    cases h

theorem Along.bind (h : Along related x) (k : ∀ a, Along related (f a)) : Along related (x >>= f) := by
  constructor
  · intro s b s'' hrun
    obtain ⟨a, s', hfirst, hnext⟩ := bind_eq_ok.mp hrun
    exact trans_of related (h.ok hfirst) ((k a).ok hnext)
  · intro s e s'' hrun
    obtain hfirst | ⟨a, s', hfirst, hnext⟩ := bind_eq_error.mp hrun
    · exact h.error hfirst
    · exact trans_of related (h.ok hfirst) ((k a).error hnext)

theorem Along.discarded (h : Along related x) : Along related (discard x) := by
  have hbind : discard x = x >>= fun _ => pure () := by
    funext s
    show EStateM.map _ x s = EStateM.bind x _ s
    unfold EStateM.map EStateM.bind
    cases x s <;> rfl
  rw [hbind]
  exact h.bind fun _ => along_pure _

theorem along_check {cond : Prop} [Decidable cond] (e : ε) :
    Along related (if cond then throw e else pure ⟨⟩ : EStateM ε σ PUnit) := by
  split
  · exact along_throw e
  · exact along_pure _

/-- An action on a condition. -/
theorem Along.onlyIf {cond : Prop} [Decidable cond] {action : EStateM ε σ PUnit} {next : PUnit → EStateM ε σ β}
    (h : Along related action) (k : ∀ u, Along related (next u)) :
    Along related (if cond then action >>= next else next ⟨⟩) := by
  split
  · exact h.bind k
  · exact k ⟨⟩

end

end GotoLang
