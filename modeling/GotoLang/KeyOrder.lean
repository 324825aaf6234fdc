/-!
# Order by a key

Entries are sorted by a number that each of them has. Those with the same number keep their order.
-/
namespace GotoLang

variable {α : Type}

/-- Insert an entry behind those with no larger key. -/
def insertByKey (key : α → Nat) (x : α) : List α → List α
  | [] => [x]
  | y :: ys => if key y ≤ key x then y :: insertByKey key x ys else x :: y :: ys

def sortByKey (key : α → Nat) (xs : List α) : List α :=
  xs.foldl (fun sorted x => insertByKey key x sorted) []

section
variable {key : α → Nat} {x : α} {xs : List α}

theorem perm_insertByKey : (insertByKey key x xs).Perm (x :: xs) := by
  induction xs with
  | nil => exact .refl _
  | cons y ys ih =>
      rw [insertByKey]
      split
      · exact (ih.cons y).trans (.swap x y ys)
      · exact .refl _

theorem sorted_insertByKey (h : xs.Pairwise fun y z => key y ≤ key z) :
    (insertByKey key x xs).Pairwise fun y z => key y ≤ key z := by
  induction xs with
  | nil => exact List.pairwise_singleton _ x
  | cons y ys ih =>
      obtain ⟨hfirst, hrest⟩ := List.pairwise_cons.mp h
      rw [insertByKey]
      split
      · next hle =>
          refine List.pairwise_cons.mpr ⟨fun z hz => ?_, ih hrest⟩
          rcases List.mem_cons.mp (perm_insertByKey.mem_iff.mp hz) with rfl | hz
          · exact hle
          · exact hfirst z hz
      · next hlt =>
          refine List.pairwise_cons.mpr ⟨fun z hz => ?_, h⟩
          rcases List.mem_cons.mp hz with rfl | hz
          · omega
          · have := hfirst z hz
            omega

theorem perm_sortByKey (key : α → Nat) (xs : List α) : (sortByKey key xs).Perm xs := by
  have hfold : ∀ sorted : List α,
      (xs.foldl (fun sorted x => insertByKey key x sorted) sorted).Perm (xs ++ sorted) := by
    induction xs with
    | nil => exact fun sorted => .refl sorted
    | cons x xs ih =>
        intro sorted
        exact (ih _).trans ((perm_insertByKey.append_left xs).trans List.perm_middle)
  rw [sortByKey]
  simpa using hfold []

theorem sorted_sortByKey (key : α → Nat) (xs : List α) :
    (sortByKey key xs).Pairwise fun y z => key y ≤ key z := by
  have hfold : ∀ sorted : List α, sorted.Pairwise (fun y z => key y ≤ key z) →
      (xs.foldl (fun sorted x => insertByKey key x sorted) sorted).Pairwise fun y z => key y ≤ key z := by
    induction xs with
    | nil => exact fun _ h => h
    | cons x xs ih => exact fun sorted h => ih _ (sorted_insertByKey h)
  exact hfold [] .nil

end

end GotoLang
