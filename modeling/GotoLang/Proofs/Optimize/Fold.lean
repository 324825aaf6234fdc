import GotoLang.Proofs.Optimize.SameRuns

/-!
# Folded constants

A fold replaces a window of operations that starts with a constant: its first operation takes over what
the window comes to, and the others become empty. The window is only entered at its first operation,
because no transfer goes further inside. The flags that tell this are older than the operations in the
course of a round, but folds never add a target of transfers, so the flags still cover them all.
-/
namespace GotoLang

namespace Fold

/-- Wherever a transfer goes there is a flag. -/
def Covers (targets : Array Bool) (ops : Array Op) : Prop :=
  ∀ (addr : Nat) (op : Op) (target : Addr), ops[addr]? = some op → op.target? = some target →
    target.toNat < ops.size → targets.getD target.toNat false = true

/-- An address gets a flag exactly if some transfer goes there. -/
theorem flags_getD {ops : List Op} {flags : Array Bool} {addr : Nat} (haddr : addr < flags.size) :
    (ops.foldl (fun flags op =>
      match op.target? with
      | some target => flags.setIfInBounds target.toNat true
      | none => flags) flags).getD addr false = true ↔
      flags.getD addr false = true ∨ ∃ op ∈ ops, ∃ t, op.target? = some t ∧ t.toNat = addr := by
  induction ops generalizing flags with
  | nil => simp
  | cons op ops ih =>
      rw [List.foldl_cons]
      simp only [List.mem_cons, exists_eq_or_imp]
      cases ht : op.target? with
      | none =>
          rw [ih haddr]
          simp
      | some target =>
          rw [ih (by simpa using haddr)]
          by_cases hta : target.toNat = addr
          · simp [Array.getD_eq_getD_getElem?, hta, Array.getElem?_setIfInBounds_self_of_lt haddr]
          · simp [Array.getD_eq_getD_getElem?, hta, Array.getElem?_setIfInBounds_ne]

theorem covers_targets (ops : Array Op) : Covers (Op.targets ops) ops := by
  intro addr op target ho ht hlt
  rw [Op.targets, ← Array.foldl_toList]
  refine (flags_getD (by rw [Array.size_replicate]; omega)).mpr (.inr ⟨op, ?_, target, ht, rfl⟩)
  exact Array.mem_toList_iff.mpr (Array.mem_of_getElem? ho)

theorem isSealed_iff {targets : Array Bool} {first last : Nat} :
    isSealed targets first last = true ↔
      ∀ addr, first < addr → addr ≤ last → targets.getD addr false = false := by
  simp only [isSealed, List.all_eq_true, List.mem_range', Bool.not_eq_true']
  constructor
  · intro h addr hf hl
    exact h addr ⟨addr - (first + 1), by omega, by omega⟩
  · rintro h addr ⟨i, hi, rfl⟩
    exact h _ (by omega) (by omega)

/-- A window that comes to one operation. -/
inductive Window (ops : Array Op) (first last : Nat) : Op → Prop
  | unary {a : Word} {op : UnaryOp} : ops[first]? = some (.push a) →
      Op.Nops ops (first + 1) last → ops[last]? = some (.unary op) → first < last →
      Window ops first last (.push (op.eval a))
  | jumpIf {a : Word} {target : Addr} : ops[first]? = some (.push a) →
      Op.Nops ops (first + 1) last → ops[last]? = some (.jumpIf target) → first < last →
      Window ops first last (if a != 0 then .jump target else .nop)
  | binary {a b value : Word} {op : BinaryOp} {mid : Nat} : ops[first]? = some (.push a) →
      Op.Nops ops (first + 1) mid → ops[mid]? = some (.push b) →
      Op.Nops ops (mid + 1) last → ops[last]? = some (.binary op) →
      op.eval? a b = some value → first < mid → mid < last →
      Window ops first last (.push value)

/-- One sequence is another with the operations of a window replaced by one in the first place. -/
structure Collapsed (ops ops' : Array Op) (first last : Nat) (op : Op) : Prop where
  size : ops'.size = ops.size
  atFirst : ops'[first]? = some op
  inside : Op.Nops ops' (first + 1) (last + 1)
  outside : ∀ addr, ¬ (first ≤ addr ∧ addr ≤ last) → ops'[addr]? = ops[addr]?

theorem Window.lt {ops : Array Op} {first last : Nat} {op : Op} (h : Window ops first last op) :
    first < last ∧ last < ops.size := by
  cases h with
  | unary _ _ hl h => exact ⟨h, (Array.getElem?_eq_some_iff.mp hl).1⟩
  | jumpIf _ _ hl h => exact ⟨h, (Array.getElem?_eq_some_iff.mp hl).1⟩
  | binary _ _ _ _ hl _ h h' => exact ⟨h.trans h', (Array.getElem?_eq_some_iff.mp hl).1⟩

theorem Window.first {ops : Array Op} {first last : Nat} {op : Op} (h : Window ops first last op) :
    ∃ a, ops[first]? = some (.push a) := by
  cases h with
  | unary h | jumpIf h | binary h => exact ⟨_, h⟩

theorem Window.last {ops : Array Op} {first last : Nat} {op : Op} (h : Window ops first last op) :
    ∃ consumer, ops[last]? = some consumer ∧ consumer ≠ .nop := by
  cases h with
  | unary _ _ h => exact ⟨_, h, by simp⟩
  | jumpIf _ _ h => exact ⟨_, h, by simp⟩
  | binary _ _ _ _ h => exact ⟨_, h, by simp⟩

/-- A window comes to a transfer only if its last operation is one to the same place. -/
theorem Window.target {ops : Array Op} {first last : Nat} {op : Op} {target : Addr}
    (h : Window ops first last op) (ht : op.target? = some target) :
    ops[last]? = some (.jumpIf target) := by
  cases h with
  | unary => cases ht
  | @jumpIf a target' _ _ hl _ =>
      split at ht
      · cases ht
        exact hl
      · cases ht
  | binary => cases ht

theorem size_collapse (ops : Array Op) (first : Nat) (op : Op) (rest : List Nat) :
    (collapse ops first op rest).size = ops.size := by
  rw [collapse]
  induction rest generalizing ops first op with
  | nil => exact Array.size_setIfInBounds
  | cons addr rest ih =>
      rw [List.foldl_cons, ih, Array.size_setIfInBounds]

theorem getElem?_collapse {ops : Array Op} {first : Nat} {op : Op} {rest : List Nat} {addr : Nat}
    (haddr : addr < ops.size) : (collapse ops first op rest)[addr]? =
      if addr ∈ rest then some .nop else if addr = first then some op else ops[addr]? := by
  rw [collapse]
  induction rest generalizing ops first op with
  | nil =>
      rw [List.foldl_nil, Array.getElem?_setIfInBounds]
      grind
  | cons head rest ih =>
      rw [List.foldl_cons, ih (by rwa [Array.size_setIfInBounds])]
      rw [Array.getElem?_setIfInBounds]
      grind

theorem collapsed_collapse {ops : Array Op} {first last : Nat} {op : Op} {rest : List Nat}
    (hfirst : first ≤ last) (hlast : last < ops.size)
    (hrest : ∀ addr, addr ∈ rest → first < addr ∧ addr ≤ last)
    (hinside : ∀ addr, first < addr → addr ≤ last → addr ∈ rest ∨ ops[addr]? = some .nop) :
    Collapsed ops (collapse ops first op rest) first last op := by
  refine ⟨size_collapse ops first op rest, ?_, ?_, ?_⟩
  · have hnot : first ∉ rest := fun h => absurd (hrest first h).1 (lt_irrefl first)
    rw [getElem?_collapse (by omega), if_neg hnot, if_pos rfl]
  · intro addr hf hl
    rw [getElem?_collapse (by omega), if_neg (c := addr = first) (by omega)]
    rcases hinside addr (by omega) (by omega) with h | h
    · rw [if_pos h]
    · rw [h, ite_self]
  · intro addr hout
    by_cases haddr : addr < ops.size
    · have hnot : addr ∉ rest := by
        intro h
        have := hrest addr h
        omega
      rw [getElem?_collapse haddr, if_neg hnot, if_neg]
      rintro rfl
      exact hout ⟨le_rfl, hfirst⟩
    · rw [Array.getElem?_eq_none (by rw [size_collapse]; omega),
        Array.getElem?_eq_none (by omega)]

/-- What a fold changes: a sealed window is collapsed into what it comes to. -/
theorem at?_eq_some {targets : Array Bool} {ops ops' : Array Op} {first : Nat}
    (h : at? targets ops first = some ops') :
    ∃ last op, isSealed targets first last = true ∧ Window ops first last op ∧
      Collapsed ops ops' first last op := by
  simp only [at?, Option.bind_eq_bind, Option.bind_eq_some_iff] at h
  obtain ⟨op₁, h₁, h⟩ := h
  split at h
  case h_2 => cases h
  case h_1 a =>
  obtain ⟨second, hsecond, op₂, h₂, h⟩ := by simpa only [Option.bind_eq_some_iff] using h
  obtain ⟨hlt, hsize, -, hnops⟩ := Op.nextLive?_eq_some.mp hsecond
  have hsingle : ∀ op, Collapsed ops (collapse ops first op [second]) first second op := by
    intro op
    refine collapsed_collapse (by omega) hsize ?_ ?_
    · rintro addr haddr
      rw [List.mem_singleton.mp haddr]
      omega
    · intro addr hf hl
      by_cases heq : addr = second
      · exact .inl (heq ▸ List.mem_singleton_self second)
      · exact .inr (hnops addr (by omega) (by omega))
  split at h
  · split at h
    · next hs =>
        cases h
        exact ⟨second, _, hs, .unary h₁ hnops h₂ (by omega), hsingle _⟩
    · cases h
  · split at h
    · next hs =>
        cases h
        exact ⟨second, _, hs, .jumpIf h₁ hnops h₂ (by omega), hsingle _⟩
    · cases h
  · obtain ⟨third, hthird, op₃, h₃, h⟩ := by simpa only [Option.bind_eq_some_iff] using h
    split at h
    case h_2 => cases h
    case h_1 op =>
    obtain ⟨value, hv, h⟩ := Option.bind_eq_some_iff.mp h
    obtain ⟨hlt', hsize', -, hnops'⟩ := Op.nextLive?_eq_some.mp hthird
    split at h
    · next hs =>
        cases h
        refine ⟨third, _, hs, .binary h₁ hnops h₂ hnops' h₃ hv (by omega) (by omega), ?_⟩
        refine collapsed_collapse (by omega) hsize' ?_ ?_
        · intro addr haddr
          rcases List.mem_cons.mp haddr with rfl | haddr
          · omega
          · rw [List.mem_singleton.mp haddr]
            omega
        · intro addr hf hl
          by_cases h₁ : addr = second
          · exact .inl (h₁ ▸ List.mem_cons_self)
          · by_cases h₂ : addr = third
            · exact .inl (h₂ ▸ List.mem_cons_of_mem _ List.mem_cons_self)
            · right
              by_cases hlt : addr < second
              · exact hnops addr (by omega) hlt
              · exact hnops' addr (by omega) (by omega)
    · cases h
  · cases h

/-- From the first operation of a window both sequences get to the same machine, behind the window or
where its last operation goes. -/
theorem Window.meets {ops ops' : Array Op} {first last : Nat} {op : Op}
    (hw : Window ops first last op) (hc : Collapsed ops ops' first last op) {m : Machine}
    (hm : m.pc = first) :
    ∃ n : Machine, (n.pc = last + 1 ∨ ∃ t, ops[last]? = some (.jumpIf t) ∧ n.pc = t.toNat) ∧
      Relation.TransGen (Moves (Machine.move ops)) m n ∧
      Relation.TransGen (Moves (Machine.move ops')) m n := by
  subst hm
  have hlt := hw.lt
  have hrest : Op.Leads ops' (m.pc + 1) (last + 1) := hc.inside.leads (by omega)
  cases hw with
  | @unary a op h₁ hnops hl _ =>
      have hpath := (hnops.leads hlt.1).reaches (m := { m with pc := m.pc + 1, stack := a :: m.stack })
        rfl
      refine ⟨{ m with pc := last + 1, stack := op.eval a :: m.stack }, .inl rfl, ?_, ?_⟩
      · exact .head' (Machine.moves_push h₁) (hpath.tail (Machine.moves_unary hl rfl))
      · exact .head' (Machine.moves_push hc.atFirst) (hrest.reaches rfl)
  | @jumpIf a target h₁ hnops hl _ =>
      have hpath := (hnops.leads hlt.1).reaches (m := { m with pc := m.pc + 1, stack := a :: m.stack })
        rfl
      have hrun := Relation.TransGen.head' (Machine.moves_push h₁)
        (hpath.tail (Machine.moves_jumpIf hl rfl))
      have hnew := hc.atFirst
      by_cases ha : (a != 0) = true
      · simp only [ha, if_true] at hrun hnew
        exact ⟨_, .inr ⟨target, hl, rfl⟩, hrun, .single (Machine.moves_jump hnew)⟩
      · simp only [ha] at hrun hnew
        exact ⟨_, .inl rfl, hrun, .head' (Machine.moves_nop hnew) (hrest.reaches rfl)⟩
  | @binary a b value op mid h₁ hnops hmid hnops' hl hv hlt₁ hlt₂ =>
      have hpath := (hnops.leads hlt₁).reaches
        (m := { m with pc := m.pc + 1, stack := a :: m.stack }) rfl
      have hpath' := (hnops'.leads hlt₂).reaches
        (m := { m with pc := mid + 1, stack := b :: a :: m.stack }) rfl
      refine ⟨{ m with pc := last + 1, stack := value :: m.stack }, .inl rfl, ?_, ?_⟩
      · exact .head' (Machine.moves_push h₁) ((hpath.tail (Machine.moves_push hmid)).trans
          (hpath'.tail (Machine.moves_binary hl rfl hv)))
      · exact .head' (Machine.moves_push hc.atFirst) (hrest.reaches rfl)

/-- No transfer goes inside a sealed window. -/
theorem Covers.outside {targets : Array Bool} {ops : Array Op} (h : Covers targets ops)
    {first last addr : Nat} {op : Op} {target : Addr} (hs : isSealed targets first last = true)
    (hlast : last < ops.size) (ho : ops[addr]? = some op) (ht : op.target? = some target) :
    ¬ (first < target.toNat ∧ target.toNat ≤ last) := by
  rintro ⟨hf, hl⟩
  have hflag := h addr op target ho ht (by omega)
  rw [isSealed_iff.mp hs target.toNat hf hl] at hflag
  cases hflag

/-- With the flags of the operations themselves, a window is sealed exactly if no transfer goes inside. -/
theorem isSealed_targets {ops : Array Op} {first last : Nat} (hlast : last < ops.size) :
    isSealed (Op.targets ops) first last = true ↔
      ∀ (addr : Nat) (op : Op) (target : Addr), ops[addr]? = some op → op.target? = some target →
        ¬ (first < target.toNat ∧ target.toNat ≤ last) := by
  constructor
  · intro hs addr op target ho ht
    exact (covers_targets ops).outside hs hlast ho ht
  · intro h
    refine isSealed_iff.mpr fun addr hf hl => ?_
    by_contra hne
    have hflag := eq_true_of_ne_false hne
    rw [Op.targets, ← Array.foldl_toList] at hflag
    rcases (flags_getD (by rw [Array.size_replicate]; omega)).mp hflag with hold | ⟨op, hop, target, ht, rfl⟩
    · rw [Array.getD_eq_getD_getElem?, Array.getElem?_replicate] at hold
      split at hold <;> cases hold
    · obtain ⟨other, ho⟩ := Array.mem_iff_getElem?.mp (Array.mem_toList_iff.mp hop)
      exact h other op target ho ht ⟨hf, hl⟩

/-- What can be folded is folded. -/
theorem exists_at? {targets : Array Bool} {ops : Array Op} {first last : Nat} {op : Op}
    (hw : Window ops first last op) (hs : isSealed targets first last = true) :
    ∃ ops', at? targets ops first = some ops' := by
  cases hw with
  | unary h₁ hnops hl hlt =>
      simp [at?, h₁, hnops.nextLive? hl (by simp) hlt, hl, hs]
  | jumpIf h₁ hnops hl hlt =>
      simp [at?, h₁, hnops.nextLive? hl (by simp) hlt, hl, hs]
  | binary h₁ hnops hmid hnops' hl hv hlt hlt' =>
      simp [at?, h₁, hnops.nextLive? hmid (by simp) hlt, hmid, hnops'.nextLive? hl (by simp) hlt', hl, hv, hs]

/-- An operator behind two constants is folded exactly if it has a value for them. -/
theorem at?_binary {targets : Array Bool} {ops : Array Op} {first : Nat} {op : BinaryOp} {lhs rhs : Word}
    (hlhs : ops[first]? = some (.push lhs)) (hrhs : ops[first + 1]? = some (.push rhs))
    (hop : ops[first + 2]? = some (.binary op)) (hs : isSealed targets first (first + 2) = true) :
    at? targets ops first = (op.eval? lhs rhs).map fun value =>
      collapse ops first (.push value) [first + 1, first + 2] := by
  have hnone : ∀ addr, Op.Nops ops addr addr := fun addr i hi hi' => absurd hi' (by omega)
  have hmid := (hnone (first + 1)).nextLive? hrhs (by simp) (Nat.le_refl _)
  have hlast := (hnone (first + 2)).nextLive? hop (by simp) (Nat.le_refl _)
  cases hvalue : op.eval? lhs rhs <;> simp [at?, hlhs, hmid, hrhs, hlast, hop, hs, hvalue]

theorem Window.sameRuns {targets : Array Bool} {ops ops' : Array Op} {first last : Nat} {op : Op}
    (hw : Window ops first last op) (hc : Collapsed ops ops' first last op)
    (hs : isSealed targets first last = true) (hcovers : Covers targets ops) :
    SameRuns ops ops' := by
  obtain ⟨hlt, hlast⟩ := hw.lt
  refine SameRuns.of_meeting_points (fun addr => ¬ (first < addr ∧ addr ≤ last))
    (by omega) fun m hm => ?_
  by_cases hpc : m.pc = first
  · obtain ⟨n, hn, hrun, hrun'⟩ := hw.meets hc hpc
    refine .inr ⟨n, ?_, hrun, hrun'⟩
    rcases hn with hn | ⟨t, ht, hn⟩
    · omega
    · rw [hn]
      exact hcovers.outside hs hlast ht rfl
  · refine .inl ⟨Machine.step_congr (hc.outside m.pc (by omega)).symm, fun n hn => ?_⟩
    obtain ⟨op', ho, hnext⟩ := Machine.pc_of_step hn
    rcases Op.mem_successors.mp hnext with ⟨t, ht, hn⟩ | ⟨-, hn⟩
    · rw [hn]
      exact hcovers.outside hs hlast ho ht
    · omega

/-- A fold adds no target of transfers, so older flags still cover all of them. -/
theorem Window.covers {targets : Array Bool} {ops ops' : Array Op} {first last : Nat} {op : Op}
    (hw : Window ops first last op) (hc : Collapsed ops ops' first last op)
    (h : Covers targets ops) : Covers targets ops' := by
  intro addr op' target ho ht hlt
  rw [hc.size] at hlt
  by_cases hin : first ≤ addr ∧ addr ≤ last
  · by_cases heq : addr = first
    · subst heq
      rw [hc.atFirst] at ho
      cases ho
      exact h last _ target (hw.target ht) rfl hlt
    · rw [hc.inside addr (by omega) (by omega)] at ho
      cases ho
      cases ht
  · rw [hc.outside addr hin] at ho
    exact h addr op' target ho ht hlt

/-- One fold, by flags that cover all targets. -/
def Step (ops ops' : Array Op) : Prop :=
  ∃ targets first last op, Covers targets ops ∧ isSealed targets first last = true ∧
    Window ops first last op ∧ Collapsed ops ops' first last op

theorem Step.size {ops ops' : Array Op} (h : Step ops ops') : ops'.size = ops.size := by
  obtain ⟨targets, first, last, op, -, -, -, hc⟩ := h
  exact hc.size

theorem Step.sameRuns {ops ops' : Array Op} (h : Step ops ops') : SameRuns ops ops' := by
  obtain ⟨targets, first, last, op, hcovers, hs, hw, hc⟩ := h
  exact hw.sameRuns hc hs hcovers

theorem steps_round (ops : Array Op) : Relation.ReflTransGen Step ops (round ops).1 := by
  -- The flags of the round cover all targets on the way.
  suffices h : Relation.ReflTransGen Step ops (round ops).1 ∧
      Covers (Op.targets ops) (round ops).1 from h.1
  rw [round]
  refine List.foldlRecOn (motive := fun state : Array Op × Nat =>
    Relation.ReflTransGen Step ops state.1 ∧ Covers (Op.targets ops) state.1) _ _
    ⟨.refl, covers_targets ops⟩ ?_
  intro state h addr _
  cases hat : at? (Op.targets ops) state.1 addr with
  | none => simpa only [hat] using h
  | some ops' =>
      obtain ⟨hsteps, hcovers⟩ := h
      obtain ⟨last, op, hs, hw, hc⟩ := at?_eq_some hat
      simp only [hat]
      exact ⟨hsteps.tail ⟨_, _, _, _, hcovers, hs, hw, hc⟩, hw.covers hc hcovers⟩

theorem steps_rounds (bound : Nat) (ops : Array Op) (folded : Nat) :
    Relation.ReflTransGen Step ops (rounds bound ops folded).1 := by
  induction bound generalizing ops folded with
  | zero => exact .refl
  | succ bound ih =>
      have hsteps := steps_round ops
      rw [rounds]
      split
      · next ops' hr =>
          rw [hr] at hsteps
          exact hsteps
      · next ops' count _ hr =>
          rw [hr] at hsteps
          exact hsteps.trans (ih ops' (folded + count))

end Fold

/-- Folding constants is one fold after the other. -/
theorem Op.steps_foldConstants (ops : Array Op) :
    Relation.ReflTransGen Fold.Step ops (foldConstants ops).1 :=
  Fold.steps_rounds _ ops 0

end GotoLang
