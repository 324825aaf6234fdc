import Mathlib.Data.List.Forall2
import GotoLang.Proofs.Behaviour

/-!
# Kinds of values on the stack

Operations are typed by the kinds of the values they take from the stack and leave on it. A typing of a
program says with which kinds its operations may be entered: the first one with an empty stack, and
whatever an operation leads to with the kinds that it leaves. There may be several such lists of kinds
for an operation, but they all have the same length. A machine in a typed program always has values of
such kinds on its stack, at whatever operation it stands and however it got there.

What the kinds are is a parameter. The laws say that the value of an operator has the kind that the
operator leaves.
-/
namespace GotoLang

/-- Every word is an integer, and two of them are truth values. -/
def Ty.Has : Ty → Word → Prop
  | int, _ => True
  | bool, value => value = 0 ∨ value = 1

theorem Ty.has_toInt64 (b : Bool) : Ty.Has .bool b.toInt64 := by
  cases b
  · exact .inl rfl
  · exact .inr rfl

structure Kinds (κ : Type) where
  /-- The words of a kind. -/
  has : κ → Word → Prop
  /-- The kind of what a variable holds. -/
  slot : Slot → Option κ
  /-- The kinds of the values of a type. -/
  ty : Ty → κ → Prop
  unary : UnaryOp → κ → κ → Prop
  binary : BinaryOp → κ → κ → κ → Prop
  unary_eval : ∀ {op a b x}, unary op a b → has a x → has b (op.eval x)
  binary_eval : ∀ {op a b c x y z}, binary op a b c → has a x → has b y →
    op.eval? x y = some z → has c z

variable {κ : Type}

/-- The kinds on the stack before and after an operation, with the top first. -/
inductive Op.Typed (kinds : Kinds κ) : Op → List κ → List κ → Prop
  | push {value : Word} {k : κ} {st : List κ} : kinds.has k value → Typed kinds (.push value) st (k :: st)
  | load {slot : Slot} {k : κ} {st : List κ} : kinds.slot slot = some k → Typed kinds (.load slot) st (k :: st)
  | store {slot : Slot} {k : κ} {st : List κ} : kinds.slot slot = some k → Typed kinds (.store slot) (k :: st) st
  | unary {op : UnaryOp} {a b : κ} {st : List κ} : kinds.unary op a b →
      Typed kinds (.unary op) (a :: st) (b :: st)
  | binary {op : BinaryOp} {a b c : κ} {st : List κ} : kinds.binary op a b c →
      Typed kinds (.binary op) (b :: a :: st) (c :: st)
  | jump {target : Addr} {st : List κ} : Typed kinds (.jump target) st st
  | jumpIf {target : Addr} {k : κ} {st : List κ} : kinds.ty .bool k →
      Typed kinds (.jumpIf target) (k :: st) st
  | print {ty : Ty} {k : κ} {st : List κ} : kinds.ty ty k → Typed kinds (.print ty) (k :: st) st
  | exit {k : κ} {st : List κ} : kinds.ty .int k → Typed kinds .exit (k :: st) st
  | nop {st : List κ} : Typed kinds .nop st st

/-- A typed operation finds as many values as it takes and leaves the stack as high as its effect
says. -/
theorem Op.Typed.height {kinds : Kinds κ} {op : Op} {st st' : List κ} (h : op.Typed kinds st st') :
    op.pops ≤ st.length ∧ st'.length = st.length - op.pops + op.pushes := by
  cases h <;> simp [pops, pushes]

/-- The kinds that operations may be entered with. -/
abbrev Typing (κ : Type) := Nat → List κ → Prop

/-- A typing is closed under control, and no operation is entered with stacks of two heights. -/
structure Typing.Fits (kinds : Kinds κ) (typing : Typing κ) (ops : Array Op) : Prop where
  start : typing 0 []
  flow : ∀ addr st, typing addr st → ∃ op st', ops[addr]? = some op ∧ op.Typed kinds st st' ∧
    ∀ next ∈ op.successors addr, typing next st'
  height : ∀ {addr st st'}, typing addr st → typing addr st' → st.length = st'.length

/-- Some typing fits the operations. -/
def Op.WellTyped (kinds : Kinds κ) (ops : Array Op) : Prop :=
  ∃ typing : Typing κ, typing.Fits kinds ops

namespace Typing.Fits
variable {kinds : Kinds κ} {typing : Typing κ} {ops : Array Op}

theorem lt_size (h : typing.Fits kinds ops) {addr : Nat} {st : List κ} (hat : typing addr st) :
    addr < ops.size := by
  obtain ⟨op, _, ho, _⟩ := h.flow addr st hat
  exact (Array.getElem?_eq_some_iff.mp ho).1

/-- How a known operation is typed, and that its successors are. -/
theorem typed (h : typing.Fits kinds ops) {addr : Nat} {st : List κ} {op : Op}
    (hat : typing addr st) (ho : ops[addr]? = some op) :
    ∃ st', op.Typed kinds st st' ∧ ∀ next ∈ op.successors addr, typing next st' := by
  obtain ⟨op', st', ho', ht, hnext⟩ := h.flow addr st hat
  rw [ho] at ho'
  cases ho'
  exact ⟨st', ht, hnext⟩

end Typing.Fits

/-- Every variable holds a word of its kind. -/
def Kinds.Fill (kinds : Kinds κ) (slots : Array Word) : Prop :=
  ∀ slot k, kinds.slot slot = some k → ∃ value, slots[slot.toNat]? = some value ∧ kinds.has k value

theorem Kinds.Fill.store {kinds : Kinds κ} {slots : Array Word} (h : kinds.Fill slots) {slot : Slot}
    {k : κ} {value : Word} (hk : kinds.slot slot = some k) (hvalue : kinds.has k value) :
    kinds.Fill (slots.setIfInBounds slot.toNat value) := by
  intro other k' hk'
  obtain ⟨old, hold, hhas⟩ := h other k' hk'
  by_cases heq : slot = other
  · subst heq
    rw [hk] at hk'
    cases hk'
    have hlt := (Array.getElem?_eq_some_iff.mp hold).1
    exact ⟨value, Array.getElem?_setIfInBounds_self_of_lt hlt, hvalue⟩
  · have hne : slot.toNat ≠ other.toNat := fun h => heq (UInt32.toNat_inj.mp h)
    exact ⟨old, by rwa [Array.getElem?_setIfInBounds_ne hne], hhas⟩

namespace Machine
variable {kinds : Kinds κ}

/-- A machine that a typing describes. -/
structure Fits (kinds : Kinds κ) (typing : Typing κ) (st : List κ) (m : Machine) : Prop where
  place : typing m.pc st
  stack : List.Forall₂ kinds.has st m.stack
  slots : kinds.Fill m.slots

theorem slots_halt (m : Machine) (status : Word) : (m.halt status).machine.slots = m.slots := by
  rw [halt]
  split <;> rfl

theorem slots_trap (m : Machine) : m.trap.machine.slots = m.slots := by
  rw [trap]
  split
  · rfl
  · split
    · exact slots_halt _ _
    · rfl

section
variable {st st' : List κ} {m n : Machine} {op : Op}

/-- Variables hold words of their kinds after a typed operation, whether it goes on or not. -/
theorem fill_perform (ht : op.Typed kinds st st') (hstack : List.Forall₂ kinds.has st m.stack)
    (hslots : kinds.Fill m.slots) : kinds.Fill (m.perform op).machine.slots := by
  generalize hperform : m.perform op = outcome
  cases performs_iff.mpr hperform with
  | store hs =>
      cases ht with
      | store hk => exact hslots.store hk (List.forall₂_cons.mp (hs ▸ hstack)).1
  | divideByZero _ _ htrap =>
      rw [← htrap, slots_trap]
      exact hslots
  | exit _ hhalt =>
      rw [← hhalt, slots_halt]
      exact hslots
  | _ => exact hslots

/-- What is still running after a typed operation has values of the kinds that the operation leaves. -/
theorem stack_perform (ht : op.Typed kinds st st') (hstack : List.Forall₂ kinds.has st m.stack)
    (hslots : kinds.Fill m.slots) (hn : m.perform op = .running n) :
    List.Forall₂ kinds.has st' n.stack := by
  cases performs_iff.mpr hn with
  | push =>
      cases ht with
      | push hk => exact .cons hk hstack
  | load hvalue =>
      cases ht with
      | load hk =>
          obtain ⟨value, hvalue', hhas⟩ := hslots _ _ hk
          cases hvalue.symm.trans hvalue'
          exact .cons hhas hstack
  | store hs =>
      cases ht with
      | store => exact (List.forall₂_cons.mp (hs ▸ hstack)).2
  | unary hs =>
      cases ht with
      | unary hop =>
          obtain ⟨hhas, hrest⟩ := List.forall₂_cons.mp (hs ▸ hstack)
          exact .cons (kinds.unary_eval hop hhas) hrest
  | binary hs hvalue =>
      cases ht with
      | binary hop =>
          obtain ⟨hrhs, hrest⟩ := List.forall₂_cons.mp (hs ▸ hstack)
          obtain ⟨hlhs, hrest⟩ := List.forall₂_cons.mp hrest
          exact .cons (kinds.binary_eval hop hlhs hrhs hvalue) hrest
  | divideByZero _ _ htrap => exact absurd htrap (trap_ne_running _ _)
  | jump =>
      cases ht with
      | jump => exact hstack
  | jumpIf hs | fallThrough hs =>
      cases ht with
      | jumpIf => exact (List.forall₂_cons.mp (hs ▸ hstack)).2
  | print hs =>
      cases ht with
      | print => exact (List.forall₂_cons.mp (hs ▸ hstack)).2
  | exit _ hhalt => exact absurd hhalt (halt_ne_running _ _ _)
  | nop =>
      cases ht with
      | nop => exact hstack

end

theorem Fits.step {typing : Typing κ} {ops : Array Op} (hfits : typing.Fits kinds ops)
    {st : List κ} {m n : Machine} (h : Fits kinds typing st m) (hn : m.step ops = .running n) :
    ∃ st', Fits kinds typing st' n := by
  obtain ⟨op, ho, hnext⟩ := pc_of_step hn
  obtain ⟨st', ht, hflow⟩ := hfits.typed h.place ho
  rw [step_of_get ho] at hn
  have hfill := fill_perform ht (m := m.withPc (m.pc + 1)) h.stack h.slots
  rw [hn] at hfill
  exact ⟨st', hflow n.pc hnext, stack_perform ht (m := m.withPc (m.pc + 1)) h.stack h.slots hn, hfill⟩

end Machine

end GotoLang
