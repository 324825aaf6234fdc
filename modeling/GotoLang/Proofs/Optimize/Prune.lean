import GotoLang.Proofs.Optimize.SameRuns

/-!
# Unreachable operations

The flags that pruning goes by contain the first operation and with every operation all its successors,
so a machine never stands on an operation that was emptied.
-/
namespace GotoLang

namespace Prune

/-- An address is flagged or still to be visited. -/
def Seen (work : List Nat) (reached : Array Bool) (addr : Nat) : Prop :=
  reached.getD addr false = true ∨ addr ∈ work

/-- What is flagged leads only to what was seen. -/
def Closed (ops : Array Op) (work : List Nat) (reached : Array Bool) : Prop :=
  ∀ addr op, reached.getD addr false = true → ops[addr]? = some op →
    ∀ next ∈ op.successors addr, next < ops.size → Seen work reached next

theorem getD_setIfInBounds {reached : Array Bool} {addr other : Nat} (h : addr < reached.size) :
    (reached.setIfInBounds addr true).getD other false = true ↔
      other = addr ∨ reached.getD other false = true := by
  rw [Array.getD_eq_getD_getElem?, Array.getD_eq_getD_getElem?]
  by_cases hne : addr = other
  · subst hne
    simp [Array.getElem?_setIfInBounds_self_of_lt h]
  · rw [Array.getElem?_setIfInBounds_ne hne]
    simp [Ne.symm hne]

theorem count_setIfInBounds {reached : Array Bool} {addr : Nat} (h : addr < reached.size)
    (hf : reached.getD addr false ≠ true) :
    (reached.setIfInBounds addr true).count false + 1 = reached.count false := by
  have hget : reached[addr] = false := by
    simpa [Array.getD_eq_getD_getElem?, Array.getElem?_eq_getElem h] using hf
  have hpos : 0 < reached.count false := Array.count_pos_iff.mpr (hget ▸ Array.getElem_mem h)
  rw [Array.setIfInBounds, dif_pos h, Array.count_set h, hget]
  simp
  omega

/-- With a visit for each address to be visited and two for each operation that is not flagged yet,
everything that was seen is flagged in the end. -/
theorem follow_spec {ops : Array Op} (visits : Nat) {work : List Nat} {reached : Array Bool}
    (hsize : reached.size = ops.size) (hclosed : Closed ops work reached)
    (hvisits : work.length + 2 * reached.count false ≤ visits) :
    Closed ops [] (follow ops visits work reached) ∧
      ∀ addr < ops.size, Seen work reached addr → Seen [] (follow ops visits work reached) addr := by
  fun_induction follow ops visits work reached with
  | case1 work reached =>
      have hw : work = [] := List.eq_nil_of_length_eq_zero (by omega)
      subst hw
      exact ⟨hclosed, fun _ _ h => h⟩
  | case2 => exact ⟨hclosed, fun _ _ h => h⟩
  | case3 visits addr work reached ho ih =>
      have hout : ops.size ≤ addr := Array.getElem?_eq_none_iff.mp ho
      have hdrop : ∀ a < ops.size, Seen (addr :: work) reached a → Seen work reached a := by
        rintro a ha (h | h)
        · exact .inl h
        · rcases List.mem_cons.mp h with rfl | h
          · omega
          · exact .inr h
      obtain ⟨hc, hr⟩ := ih hsize (fun a op ha hop next hn hlt => hdrop _ hlt
        (hclosed a op ha hop next hn hlt)) (by rw [List.length_cons] at hvisits; omega)
      exact ⟨hc, fun a ha h => hr a ha (hdrop a ha h)⟩
  | case4 visits addr work reached op ho hf ih =>
      have hdrop : ∀ a, Seen (addr :: work) reached a → Seen work reached a := by
        rintro a (h | h)
        · exact .inl h
        · rcases List.mem_cons.mp h with rfl | h
          · exact .inl hf
          · exact .inr h
      obtain ⟨hc, hr⟩ := ih hsize (fun a op ha hop next hn hlt => hdrop _
        (hclosed a op ha hop next hn hlt)) (by rw [List.length_cons] at hvisits; omega)
      exact ⟨hc, fun a ha h => hr a ha (hdrop a h)⟩
  | case5 visits addr work reached op ho hf ih =>
      have hlt : addr < reached.size := hsize ▸ (Array.getElem?_eq_some_iff.mp ho).1
      have hgrow : ∀ a, Seen (addr :: work) reached a →
          Seen (op.successors addr ++ work) (reached.setIfInBounds addr true) a := by
        rintro a (h | h)
        · exact .inl ((getD_setIfInBounds hlt).mpr (.inr h))
        · rcases List.mem_cons.mp h with rfl | h
          · exact .inl ((getD_setIfInBounds hlt).mpr (.inl rfl))
          · exact .inr (List.mem_append_right _ h)
      have hclosed' : Closed ops (op.successors addr ++ work) (reached.setIfInBounds addr true) := by
        intro a op' ha hop next hn hnlt
        rcases (getD_setIfInBounds hlt).mp ha with rfl | ha
        · rw [ho] at hop
          cases hop
          exact .inr (List.mem_append_left _ hn)
        · exact hgrow _ (hclosed a op' ha hop next hn hnlt)
      have hcount := count_setIfInBounds hlt hf
      have hlen := op.length_successors_le addr
      obtain ⟨hc, hr⟩ := ih (by rw [Array.size_setIfInBounds, hsize]) hclosed'
        (by rw [List.length_append]; rw [List.length_cons] at hvisits; omega)
      exact ⟨hc, fun a ha h => hr a ha (hgrow a h)⟩

theorem size_follow (ops : Array Op) (visits : Nat) (work : List Nat) (reached : Array Bool) :
    (follow ops visits work reached).size = reached.size := by
  fun_induction follow ops visits work reached with
  | case1 | case2 => rfl
  | case3 _ _ _ _ _ ih => exact ih
  | case4 _ _ _ _ _ _ _ ih => exact ih
  | case5 _ _ _ _ _ _ _ ih => rw [ih, Array.size_setIfInBounds]

theorem size_reached (ops : Array Op) : (reached ops).size = ops.size := by
  rw [reached, size_follow, Array.size_replicate]

theorem reached_spec (ops : Array Op) :
    Closed ops [] (reached ops) ∧ (0 < ops.size → Seen [] (reached ops) 0) := by
  have hclosed : Closed ops [0] (Array.replicate ops.size false) := by
    intro addr op h
    rw [Array.getD_eq_getD_getElem?, Array.getElem?_replicate] at h
    split at h <;> simp at h
  obtain ⟨hc, hr⟩ := follow_spec (2 * ops.size + 1) Array.size_replicate hclosed
    (by simp; omega)
  exact ⟨hc, fun h => hr 0 h (.inr (List.mem_singleton_self 0))⟩

end Prune

theorem Op.size_prune (ops : Array Op) : (prune ops).1.size = ops.size :=
  Array.size_mapIdx

theorem Op.getElem?_prune {ops : Array Op} {addr : Nat}
    (h : (Prune.reached ops).getD addr false = true) : (prune ops).1[addr]? = ops[addr]? := by
  rw [prune, Array.getElem?_mapIdx]
  cases ops[addr]? <;> simp [h]

/-- Pruning counts the live operations that control does not reach. -/
theorem Op.prune_count_eq_zero {ops : Array Op} : (prune ops).2 = 0 ↔
    ∀ (addr : Nat) (op : Op), ops[addr]? = some op → op ≠ .nop →
      (Prune.reached ops).getD addr false = true := by
  simp only [prune, Array.countP_eq_zero]
  constructor
  · intro h addr op ho hop
    have haddr : addr < (Prune.reached ops).size :=
      Prune.size_reached ops ▸ (Array.getElem?_eq_some_iff.mp ho).1
    have hr := Array.getElem?_eq_getElem haddr
    have hmem : (op, (Prune.reached ops)[addr]) ∈ ops.zip (Prune.reached ops) :=
      Array.mem_of_getElem? (Array.getElem?_zip_eq_some.mpr ⟨ho, hr⟩)
    have hflag := h _ hmem
    rw [Array.getD_eq_getD_getElem?, hr]
    simpa [hop] using hflag
  · intro h entry hentry
    obtain ⟨addr, haddr⟩ := Array.mem_iff_getElem?.mp hentry
    obtain ⟨ho, hr⟩ := Array.getElem?_zip_eq_some.mp haddr
    by_cases hop : entry.1 = .nop
    · simp [hop]
    · have hflag := h addr entry.1 ho hop
      rw [Array.getD_eq_getD_getElem?, hr] at hflag
      simp only [Option.getD_some] at hflag
      simp [hflag]

theorem Op.prune_of_count_eq_zero {ops : Array Op} (h : (prune ops).2 = 0) : prune ops = (ops, 0) := by
  refine Prod.ext (Array.ext_getElem? fun addr => ?_) h
  rw [prune, Array.getElem?_mapIdx]
  cases ho : ops[addr]? with
  | none => rfl
  | some op =>
      rw [Option.map_some]
      split_ifs with hflag
      · rfl
      · by_contra hne
        exact hflag (prune_count_eq_zero.mp h addr op ho fun hop => hne (by rw [hop]))

theorem Op.prune_sameRuns (ops : Array Op) : SameRuns ops (prune ops).1 := by
  obtain ⟨hclosed, hstart⟩ := Prune.reached_spec ops
  have hflag : ∀ {addr}, Prune.Seen [] (Prune.reached ops) addr →
      (Prune.reached ops).getD addr false = true := by
    rintro addr (h | h)
    · exact h
    · cases h
  refine SameRuns.of_meeting_points
    (fun addr => addr < ops.size → Prune.Seen [] (Prune.reached ops) addr) hstart
    fun m hm => .inl ⟨Machine.step_congr ?_, fun n hn hlt => ?_⟩
  · by_cases hlt : m.pc < ops.size
    · exact (getElem?_prune (hflag (hm hlt))).symm
    · rw [Array.getElem?_eq_none (by omega), Array.getElem?_eq_none (by rw [size_prune]; omega)]
  · obtain ⟨op, ho, hnext⟩ := Machine.pc_of_step hn
    have hpc : m.pc < ops.size := (Array.getElem?_eq_some_iff.mp ho).1
    exact hclosed m.pc op (hflag (hm hpc)) ho n.pc hnext hlt

end GotoLang
