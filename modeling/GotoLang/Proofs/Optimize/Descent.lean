import GotoLang.Proofs.Optimize.Passes

/-!
# What becomes of an operation

Until empty operations are dropped, all changes leave operations in their places. A change gives a transfer another
target, puts a constant or a jump in place of a constant, or empties an operation. It never fills an empty one, so there
are never more live operations than before.
-/
namespace GotoLang

namespace Op
variable {ops ops' : Array Op}

theorem liveCount_eq (ops : Array Op) : liveCount ops = Renumber.liveBefore ops ops.size := by
  unfold liveCount Renumber.liveBefore
  rw [List.take_of_length_le (by simp), Array.countP_toList]

theorem liveCount_le_size (ops : Array Op) : liveCount ops ≤ ops.size :=
  liveCount_eq ops ▸ Renumber.liveBefore_le ops ops.size

/-- Where there was an empty operation there still is one. -/
structure Emptied (ops ops' : Array Op) : Prop where
  size : ops'.size = ops.size
  nop : ∀ addr : Nat, ops[addr]? = some .nop → ops'[addr]? = some .nop

/-- Between two addresses there are no more live operations than before. -/
theorem Emptied.liveBefore_add_le (h : Emptied ops ops') {first last : Nat} (hle : first ≤ last)
    (hlast : last ≤ ops.size) : Renumber.liveBefore ops' last + Renumber.liveBefore ops first ≤
      Renumber.liveBefore ops last + Renumber.liveBefore ops' first := by
  induction last, hle using Nat.le_induction with
  | base => omega
  | succ last _ ih =>
      have ho := Array.getElem?_eq_getElem (show last < ops.size by omega)
      have ho' := Array.getElem?_eq_getElem (show last < ops'.size by rw [h.size]; omega)
      have ih := ih (by omega)
      rw [Renumber.liveBefore_succ ho, Renumber.liveBefore_succ ho']
      by_cases hnop : ops[last] = .nop
      · have hnop' := h.nop last (hnop ▸ ho)
        rw [ho'] at hnop'
        rw [if_pos hnop, if_pos (Option.some.inj hnop')]
        omega
      · rw [if_neg hnop]
        split <;> omega

theorem Emptied.liveCount_lt (h : Emptied ops ops') {addr : Nat} {op : Op} (ho : ops[addr]? = some op)
    (hop : op ≠ .nop) (ho' : ops'[addr]? = some .nop) : liveCount ops' < liveCount ops := by
  have haddr := (Array.getElem?_eq_some_iff.mp ho).1
  have hbefore := h.liveBefore_add_le (Nat.zero_le addr) haddr.le
  have hbehind := h.liveBefore_add_le (show addr + 1 ≤ ops.size from haddr) le_rfl
  have hsucc := Renumber.liveBefore_succ ho
  have hsucc' := Renumber.liveBefore_succ ho'
  simp only [Renumber.liveBefore_zero, if_neg hop, if_pos] at hbefore hsucc hsucc'
  rw [liveCount_eq, liveCount_eq, h.size]
  omega

theorem Emptied.liveCount_le (h : Emptied ops ops') : liveCount ops' ≤ liveCount ops := by
  have hle := h.liveBefore_add_le (Nat.zero_le ops.size) le_rfl
  rw [liveCount_eq, liveCount_eq, h.size]
  simpa using hle

/-- What changes may make of an operation: the same with another target, a constant or a jump in place of a constant, or
nothing. -/
inductive Becomes : Op → Op → Prop
  | same (op : Op) : Becomes op op
  | retarget {op op' : Op} {target : Addr} : op.retarget? target = some op' → Becomes op op'
  | value (a b : Word) : Becomes (.push a) (.push b)
  | jump (a : Word) (target : Addr) : Becomes (.push a) (.jump target)
  | empty (op : Op) : Becomes op .nop

theorem Becomes.trans {op op' op'' : Op} (h : Becomes op op') (h' : Becomes op' op'') : Becomes op op'' := by
  cases h with
  | same => exact h'
  | retarget h =>
      cases op with
      | jump target | jumpIf target =>
          cases h
          cases h' with
          | same => exact .retarget rfl
          | retarget h' =>
              cases h'
              exact .retarget rfl
          | empty => exact .empty _
      | _ => cases h
  | value a b =>
      cases h' with
      | same | value => exact .value _ _
      | retarget h' => cases h'
      | jump => exact .jump _ _
      | empty => exact .empty _
  | jump a target =>
      cases h' with
      | same => exact .jump _ _
      | retarget h' =>
          cases h'
          exact .jump _ _
      | empty => exact .empty _
  | empty =>
      cases h' with
      | same | empty => exact .empty _
      | retarget h' => cases h'

theorem eq_nop_of_becomes {op : Op} (h : Becomes .nop op) : op = .nop := by
  cases h with
  | same | empty => rfl
  | retarget h => cases h

/-- Changes leave each operation in its place. -/
structure Descends (ops ops' : Array Op) : Prop where
  size : ops'.size = ops.size
  becomes : ∀ (addr : Nat) (op op' : Op), ops[addr]? = some op → ops'[addr]? = some op' → op.Becomes op'

theorem Descends.refl (ops : Array Op) : Descends ops ops :=
  ⟨rfl, fun _ op _ ho ho' => Option.some.inj (ho.symm.trans ho') ▸ .same op⟩

theorem Descends.trans {ops'' : Array Op} (h : Descends ops ops') (h' : Descends ops' ops'') :
    Descends ops ops'' := by
  refine ⟨h'.size.trans h.size, fun addr op op'' ho ho'' => ?_⟩
  have hlt : addr < ops'.size := h'.size ▸ (Array.getElem?_eq_some_iff.mp ho'').1
  have hmiddle := Array.getElem?_eq_getElem hlt
  exact (h.becomes addr op _ ho hmiddle).trans (h'.becomes addr _ op'' hmiddle ho'')

theorem Descends.emptied (h : Descends ops ops') : Emptied ops ops' := by
  refine ⟨h.size, fun addr hnop => ?_⟩
  have hlt : addr < ops'.size := h.size ▸ (Array.getElem?_eq_some_iff.mp hnop).1
  have hnew := Array.getElem?_eq_getElem hlt
  rw [hnew, eq_nop_of_becomes (h.becomes addr .nop _ hnop hnew)]

theorem descends_of_set {addr : Nat} {op new : Op} (ho : ops[addr]? = some op) (hnew : op.Becomes new) :
    Descends ops (ops.setIfInBounds addr new) := by
  refine ⟨Array.size_setIfInBounds, fun other op₁ op₂ ho₁ ho₂ => ?_⟩
  by_cases heq : addr = other
  · subst heq
    rw [Array.getElem?_setIfInBounds_self_of_lt (Array.getElem?_eq_some_iff.mp ho).1] at ho₂
    cases ho₂
    cases ho.symm.trans ho₁
    exact hnew
  · rw [Array.getElem?_setIfInBounds_ne heq, ho₁] at ho₂
    cases ho₂
    exact .same op₁

theorem descends_of_window {first last : Nat} {op : Op} (hw : Fold.Window ops first last op)
    (hc : Fold.Collapsed ops ops' first last op) : Descends ops ops' := by
  obtain ⟨a, hfirst⟩ := hw.first
  have hop : Becomes (.push a) op := by
    cases hw with
    | unary | binary => exact .value _ _
    | jumpIf =>
        split
        · exact .jump _ _
        · exact .empty _
  refine ⟨hc.size, fun addr op₁ op₂ ho₁ ho₂ => ?_⟩
  by_cases hin : first ≤ addr ∧ addr ≤ last
  · rcases Nat.eq_or_lt_of_le hin.1 with rfl | hlt
    · rw [hc.atFirst] at ho₂
      cases ho₂
      cases hfirst.symm.trans ho₁
      exact hop
    · rw [hc.inside addr (by omega) (by omega)] at ho₂
      cases ho₂
      exact .empty op₁
  · rw [hc.outside addr hin, ho₁] at ho₂
    cases ho₂
    exact .same op₁

theorem descends_prune (ops : Array Op) : Descends ops (prune ops).1 := by
  refine ⟨size_prune ops, fun addr op op' ho ho' => ?_⟩
  rw [prune, Array.getElem?_mapIdx, ho, Option.map_some] at ho'
  split_ifs at ho' <;> cases ho'
  · exact .same op
  · exact .empty op

theorem Change.descends (h : Change ops ops') : Descends ops ops' := by
  cases h with
  | fold h =>
      obtain ⟨targets, first, last, op, -, -, hw, hc⟩ := h
      exact descends_of_window hw hc
  | thread h =>
      obtain ⟨addr, op, target, final, op', ho, -, hop', -, rfl⟩ := h
      exact descends_of_set ho (.retarget hop')
  | bypass h =>
      obtain ⟨addr, target, next, ho, -, -, rfl⟩ := h
      exact descends_of_set ho (.empty _)
  | prune => exact descends_prune ops

theorem descends_of_changes (h : Changes ops ops') : Descends ops ops' := by
  induction h with
  | refl => exact .refl ops
  | tail _ h ih => exact ih.trans h.descends

end Op

end GotoLang
