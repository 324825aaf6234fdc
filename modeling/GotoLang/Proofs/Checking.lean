import GotoLang.Proofs.Kinds
import GotoLang.Proofs.StackDiscipline

/-!
# What the check accepts

The check does not look at the kinds of values, so to it all of them are of one kind. A program that has
addresses for its operations passes if and only if it has a line for each operation, a variable for each
slot that occurs anywhere in it, and a typing by that one kind. A typing by any other kinds will do as
well, since it tells the heights of the stack.
-/
namespace GotoLang

variable {κ : Type} {kinds : Kinds κ} {typing : Typing κ} {ops : Array Op}

namespace Flow

/-- Wherever a transfer goes in a typed program, its label is bound: the placeholder is no address. -/
theorem target_ne_placeholder (h : typing.Fits kinds ops) (hsize : ops.size < 4294967296)
    {addr : Nat} {op : Op} {st : List κ} (hat : typing addr st) (ho : ops[addr]? = some op) :
    op.target? ≠ some placeholder := by
  intro ht
  obtain ⟨st', -, hnexts⟩ := h.typed hat ho
  have htarget := hnexts _ (Op.mem_successors.mpr (.inl ⟨placeholder, ht, rfl⟩))
  have hlt : 4294967295 < ops.size := h.lt_size htarget
  omega

/-- Paths go where the typing says, with a stack as high as it says. -/
theorem typing_of_path (h : typing.Fits kinds ops) {passed : List Op} {addr : Nat}
    (hpath : Path ops passed addr) : ∃ st, typing addr st ∧ st.length = depthAfter passed := by
  induction hpath with
  | start => exact ⟨[], h.start, rfl⟩
  | step _ ho hnext ih =>
      obtain ⟨st, hat, hdepth⟩ := ih
      obtain ⟨st', ht, hnexts⟩ := h.typed hat ho
      refine ⟨st', hnexts _ hnext, ?_⟩
      rw [depthAfter_snoc, ht.height.2, hdepth]

theorem regular_of_fits (h : typing.Fits kinds ops) (hsize : ops.size < 4294967296) : Regular ops := by
  refine ⟨?_, ?_, ?_, ?_⟩
  · intro passed addr hpath
    obtain ⟨st, hat, -⟩ := typing_of_path h hpath
    exact h.lt_size hat
  · intro passed addr op hpath ho
    obtain ⟨st, hat, -⟩ := typing_of_path h hpath
    exact target_ne_placeholder h hsize hat ho
  · intro passed addr op hpath ho
    obtain ⟨st, hat, hdepth⟩ := typing_of_path h hpath
    obtain ⟨st', ht, -⟩ := h.typed hat ho
    rw [← hdepth]
    exact ht.height.1
  · intro passed passed' addr hpath hpath'
    obtain ⟨st, hat, hdepth⟩ := typing_of_path h hpath
    obtain ⟨st', hat', hdepth'⟩ := typing_of_path h hpath'
    rw [← hdepth, ← hdepth', h.height hat hat']

end Flow

namespace Program
variable {program : Program}

theorem depths_of_fits (h : typing.Fits kinds program.ops) (hsize : program.ops.size < 4294967296) :
    ∃ depths, program.depths = .ok depths :=
  exists_depths_iff.mpr (Flow.regular_of_fits h hsize)

/-- Whatever kinds a program is typed by, it passes the check if its lines and slots do. -/
theorem verify_of_wellTyped (hsize : program.ops.size < 4294967296)
    (hlines : program.lines.size = program.ops.size) (hslots : program.KnowsSlots)
    (htyped : Op.WellTyped kinds program.ops) : program.verify = .ok () := by
  obtain ⟨typing, hfits⟩ := htyped
  exact verify_iff.mpr ⟨hlines, hslots, depths_of_fits hfits hsize⟩

end Program

/-- All values are alike, and the first slots have variables. -/
def Kinds.untyped (count : Slot) : Kinds Unit where
  has _ _ := True
  slot slot := if slot < count then some () else none
  ty _ _ := True
  unary _ _ _ := True
  binary _ _ _ _ := True
  unary_eval _ _ := trivial
  binary_eval _ _ _ _ := trivial

theorem Op.typed_untyped {count : Slot} {op : Op} {st : List Unit} (hpops : op.pops ≤ st.length)
    (hslot : ∀ slot, op.slot? = some slot → slot < count) :
    ∃ st', op.Typed (Kinds.untyped count) st st' := by
  have hknown : ∀ slot, op.slot? = some slot → (Kinds.untyped count).slot slot = some () :=
    fun slot hs => if_pos (hslot slot hs)
  cases op with
  | push value => exact ⟨() :: st, .push trivial⟩
  | load slot => exact ⟨() :: st, .load (hknown slot rfl)⟩
  | jump target => exact ⟨st, .jump⟩
  | nop => exact ⟨st, .nop⟩
  | store slot =>
      cases st with
      | nil => cases hpops
      | cons k st => exact ⟨st, .store (hknown slot rfl)⟩
  | unary op =>
      cases st with
      | nil => cases hpops
      | cons k st => exact ⟨() :: st, .unary trivial⟩
  | jumpIf target =>
      cases st with
      | nil => cases hpops
      | cons k st => exact ⟨st, .jumpIf trivial⟩
  | print ty =>
      cases st with
      | nil => cases hpops
      | cons k st => exact ⟨st, .print trivial⟩
  | exit =>
      cases st with
      | nil => cases hpops
      | cons k st => exact ⟨st, .exit trivial⟩
  | binary op =>
      rcases st with _ | ⟨rhs, _ | ⟨lhs, st⟩⟩
      · cases hpops
      · exact absurd hpops (Nat.not_succ_le_self 1)
      · exact ⟨() :: st, .binary trivial⟩

/-- The depths that the check finds are a typing by one kind. -/
theorem Program.wellTyped_of_depths {program : Program} {depths : Flow.Depths}
    (hslots : program.KnowsSlots) (hdepths : program.depths = .ok depths) :
    Op.WellTyped (Kinds.untyped program.slots.size.toUInt32) program.ops := by
  obtain ⟨hstart, hclosed, -⟩ := depths_spec hdepths
  refine ⟨fun addr st => Flow.At depths addr st.length, hstart, ?_, Flow.at_unique⟩
  intro addr st hat
  obtain ⟨op, hpasses⟩ := hclosed addr st.length hat
  obtain ⟨st', ht⟩ := Op.typed_untyped hpasses.enough
    (hslots op (Array.mem_of_getElem? hpasses.get))
  refine ⟨op, st', hpasses.get, ht, ?_⟩
  intro next hnext
  rw [ht.height.2]
  exact (hpasses.onward next hnext).resolve_right List.not_mem_nil

/-- What the check demands, in terms of the program. -/
theorem Program.verify_iff_wellTyped {program : Program} (hsize : program.ops.size < 4294967296) :
    program.verify = .ok () ↔ program.lines.size = program.ops.size ∧ program.KnowsSlots ∧
      Op.WellTyped (Kinds.untyped program.slots.size.toUInt32) program.ops := by
  constructor
  · intro h
    obtain ⟨hlines, hslots, depths, hdepths⟩ := verify_iff.mp h
    exact ⟨hlines, hslots, wellTyped_of_depths hslots hdepths⟩
  · rintro ⟨hlines, hslots, htyped⟩
    exact verify_of_wellTyped hsize hlines hslots htyped

end GotoLang
