import GotoLang.Optimize
import GotoLang.Proofs.Behaviour

/-!
# Silent paths

Empty operations and jumps only move the program counter. A path over nothing else is silent: a machine
at its start gets to its end without anything else happening to it. The next live operation is found at
the end of a silent path over empty operations.
-/
namespace GotoLang

/-- Nothing but empty operations stands from one address up to another. -/
def Op.Nops (ops : Array Op) (first last : Nat) : Prop :=
  ∀ addr, first ≤ addr → addr < last → ops[addr]? = some .nop

/-- Empty operations and jumps lead from one address to another. -/
inductive Op.Leads (ops : Array Op) : Nat → Nat → Prop
  | here (addr : Nat) : Leads ops addr addr
  | nop {addr last : Nat} : ops[addr]? = some .nop → Leads ops (addr + 1) last → Leads ops addr last
  | jump {addr last : Nat} {target : Addr} : ops[addr]? = some (.jump target) →
      Leads ops target.toNat last → Leads ops addr last

namespace Op
variable {ops : Array Op}

theorem Nops.tail {first last : Nat} (h : Nops ops first last) : Nops ops (first + 1) last :=
  fun addr hf hl => h addr (by omega) hl

theorem Nops.leads {first last : Nat} (h : Nops ops first last) (hle : first ≤ last) :
    Leads ops first last := by
  induction hle using Nat.decreasingInduction with
  | self => exact .here last
  | of_succ k hk ih => exact .nop (h k le_rfl hk) (ih h.tail)

theorem Leads.trans {first mid last : Nat} (h : Leads ops first mid) (k : Leads ops mid last) :
    Leads ops first last := by
  induction h with
  | here => exact k
  | nop ho _ ih => exact .nop ho (ih k)
  | jump ho _ ih => exact .jump ho (ih k)

/-- A machine follows a silent path. -/
theorem Leads.reaches {first last : Nat} (h : Leads ops first last) {m : Machine}
    (hm : m.pc = first) : Relation.ReflTransGen (Moves (Machine.move ops)) m (m.withPc last) := by
  induction h generalizing m with
  | here => subst hm; exact .refl
  | nop ho _ ih =>
      subst hm
      exact .head (Machine.moves_nop ho) (ih (m := m.withPc (m.pc + 1)) rfl)
  | @jump _ _ target ho _ ih =>
      subst hm
      exact .head (Machine.moves_jump ho) (ih (m := m.withPc target.toNat) rfl)

theorem nextLiveWithin_eq_some {count addr live : Nat} :
    nextLiveWithin ops count addr = some live ↔
      addr ≤ live ∧ live < addr + count ∧ ops[live]? ≠ some .nop ∧ Nops ops addr live := by
  induction count generalizing addr with
  | zero => simp [nextLiveWithin]; omega
  | succ count ih =>
      rw [nextLiveWithin]
      split
      · next hn =>
          rw [ih]
          constructor
          · rintro ⟨hle, hlt, hl, hnops⟩
            refine ⟨by omega, by omega, hl, fun a ha hal => ?_⟩
            rcases Nat.eq_or_lt_of_le ha with rfl | ha
            · exact hn
            · exact hnops a ha hal
          · rintro ⟨hle, hlt, hl, hnops⟩
            have hne : addr ≠ live := by
              rintro rfl
              exact hl hn
            exact ⟨by omega, by omega, hl, hnops.tail⟩
      · next hn =>
          rw [Option.some.injEq]
          constructor
          · rintro rfl
            exact ⟨le_rfl, by omega, hn, fun a ha hal => by omega⟩
          · rintro ⟨hle, -, -, hnops⟩
            by_contra hne
            exact hn (hnops addr le_rfl (by omega))

/-- What the next live operation is: live, and behind empty operations only. -/
theorem nextLive?_eq_some {addr live : Nat} :
    nextLive? ops addr = some live ↔
      addr ≤ live ∧ live < ops.size ∧ ops[live]? ≠ some .nop ∧ Nops ops addr live := by
  rw [nextLive?, nextLiveWithin_eq_some]
  refine ⟨fun ⟨h₁, h₂, h₃⟩ => ⟨h₁, by omega, h₃⟩, fun ⟨h₁, h₂, h₃⟩ => ⟨h₁, by omega, h₃⟩⟩

theorem Nops.nextLive? {addr live : Nat} {op : Op} (h : Nops ops addr live) (hop : ops[live]? = some op)
    (hlive : op ≠ .nop) (hle : addr ≤ live) : nextLive? ops addr = some live := by
  refine nextLive?_eq_some.mpr ⟨hle, (Array.getElem?_eq_some_iff.mp hop).1, fun hnop => ?_, h⟩
  exact hlive (Option.some.inj (hop.symm.trans hnop))

theorem live_of_nextLive? {addr live : Nat} (h : nextLive? ops addr = some live) :
    ∃ op, ops[live]? = some op ∧ op ≠ .nop := by
  obtain ⟨-, hlt, hlive, -⟩ := nextLive?_eq_some.mp h
  have ho := Array.getElem?_eq_getElem hlt
  exact ⟨_, ho, fun hnop => hlive (by rw [ho, hnop])⟩

theorem nextLiveWithin_eq_none {count addr : Nat} (h : nextLiveWithin ops count addr = none) :
    Nops ops addr (addr + count) := by
  induction count generalizing addr with
  | zero => exact fun a ha hlt => by omega
  | succ count ih =>
      rw [nextLiveWithin] at h
      split at h
      · next hn =>
          intro a ha hlt
          rcases Nat.eq_or_lt_of_le ha with rfl | ha
          · exact hn
          · exact ih h a ha (by omega)
      · cases h

theorem nextLive?_eq_none {addr : Nat} (h : nextLive? ops addr = none) : Nops ops addr ops.size :=
  fun a ha hlt => nextLiveWithin_eq_none h a ha (by omega)

/-- The next live operation depends only on where the empty ones stand. -/
theorem nextLive?_congr {ops' : Array Op} (hsize : ops'.size = ops.size)
    (h : ∀ addr : Nat, ops'[addr]? = some .nop ↔ ops[addr]? = some .nop) :
    nextLive? ops' = nextLive? ops := by
  funext addr
  rw [nextLive?, nextLive?, hsize]
  induction ops.size - addr generalizing addr with
  | zero => rfl
  | succ count ih =>
      unfold nextLiveWithin
      simp only [h, ih]

theorem nextLive?_leads {addr live : Nat} (h : nextLive? ops addr = some live) :
    Leads ops addr live := by
  obtain ⟨hle, -, -, hnops⟩ := nextLive?_eq_some.mp h
  exact hnops.leads hle

end Op

end GotoLang
