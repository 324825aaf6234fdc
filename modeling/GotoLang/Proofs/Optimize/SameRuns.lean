import GotoLang.Proofs.Optimize.SilentPaths

/-!
# Operations with the same runs

Two sequences of operations have the same runs if a machine at the first operation ends with the one as
it does with the other. A change of some operations is justified by meeting points: addresses at which
both sequences do the same, or from which both get to the same machine.
-/
namespace GotoLang

/-- Every machine at the first operation ends alike with both sequences, or with none of them. -/
def SameRuns (ops ops' : Array Op) : Prop :=
  ∀ m : Machine, m.pc = 0 → ∀ e,
    (∃ e', Ends (Machine.move ops) m e' ∧ e'.Alike e) ↔
      ∃ e', Ends (Machine.move ops') m e' ∧ e'.Alike e

namespace SameRuns

theorem refl (ops : Array Op) : SameRuns ops ops := fun _ _ _ => Iff.rfl

theorem trans {ops ops' ops'' : Array Op} (h : SameRuns ops ops') (k : SameRuns ops' ops'') :
    SameRuns ops ops'' :=
  fun m hm e => (h m hm e).trans (k m hm e)

/-- Machines that meet again and again from the first operation on have the same runs. -/
theorem of_meeting {ops ops' : Array Op} {R : Machine → Machine → Prop}
    (h : Meeting (Machine.move ops) (Machine.move ops') Ending.Alike R)
    (start : ∀ m : Machine, m.pc = 0 → R m m) : SameRuns ops ops' := by
  intro m hm e
  constructor
  · rintro ⟨e', he, ha⟩
    obtain ⟨q, hq, hqa⟩ := h.ends (start m hm) he
    exact ⟨q, hq, hqa.symm.trans ha⟩
  · rintro ⟨e', he, ha⟩
    obtain ⟨q, hq, hqa⟩ := h.swap.ends (start m hm) he
    exact ⟨q, hq, hqa.trans ha⟩

/-- At a meeting point both sequences make the same step to another one, or both get to the same
machine at another one. -/
theorem of_meeting_points {ops ops' : Array Op} (Point : Nat → Prop) (start : Point 0)
    (h : ∀ m : Machine, Point m.pc →
      (m.step ops = m.step ops' ∧ ∀ n, m.step ops = .running n → Point n.pc) ∨
      ∃ n : Machine, Point n.pc ∧ Relation.TransGen (Moves (Machine.move ops)) m n ∧
        Relation.TransGen (Moves (Machine.move ops')) m n) :
    SameRuns ops ops' := by
  refine of_meeting (R := fun m n => m = n ∧ Point m.pc) ?_ fun m hm => ⟨rfl, hm ▸ start⟩
  rintro m _ ⟨rfl, hp⟩
  rcases h m hp with ⟨heq, hnext⟩ | ⟨n, hn, hm, hm'⟩
  · cases hs : Machine.move ops m with
    | stop e =>
        have hs' : Machine.move ops' m = .stop e := by rw [Machine.move, ← heq]; exact hs
        exact .inl ⟨e, e, .stop hs, .stop hs', .refl e⟩
    | next n =>
        have hn : m.step ops = .running n := Machine.moves_iff.mp hs
        have hn' : m.step ops' = .running n := heq ▸ hn
        exact .inr ⟨n, n, .single hs, .single (Machine.moves_iff.mpr hn'), rfl, hnext n hn⟩
  · exact .inr ⟨n, n, hm, hm', rfl, hn⟩

end SameRuns

end GotoLang
