import GotoLang.Proofs.Faults
import GotoLang.X64.Encoder
import Mathlib.Order.Bounds.Basic

/-!
# Variables in a frame

A frame has eight bytes for each variable, below the frame pointer, and its size is rounded up to a multiple
of sixteen. Whenever this size is a signed 32-bit number, the distances of all variables are such numbers too,
and each variable has bytes of its own within the frame.

Sizes and distances are computed on numbers of any length. The same numbers come out on 64-bit words, where
a step that could wrap is checked and the low half of the result is taken in the end.

So the code that sets up a frame fails before its first instruction or not at all. To say this, it is told a
second time with the code written in place, where a fault between two instructions would leave the first of
them behind.
-/
namespace GotoLang.X64

namespace Frame

theorem offset_eq_ok {slot offset : Nat} (h : Frame.offset slot = .ok offset) : offset = 8 * (slot + 1) := by
  rw [Frame.offset] at h
  split at h <;> cases h
  rfl

theorem size_eq_ok {slots size : Nat} (h : Frame.size slots = .ok size) :
    size = (8 * slots + 15) / 16 * 16 ∧ size ≤ Frame.limit := by
  rw [Frame.size] at h
  split at h <;> cases h
  exact ⟨rfl, by assumption⟩

theorem size_eq_error {slots : Nat} {e : EncodingError} (h : Frame.size slots = .error e) :
    e = .frameTooLarge slots := by
  rw [Frame.size] at h
  split at h <;> cases h
  rfl

/-- In a frame that is not too large every variable has its place. -/
theorem offset_of_size {slots size slot : Nat} (hsize : Frame.size slots = .ok size) (hslot : slot < slots) :
    Frame.offset slot = .ok (8 * (slot + 1)) := by
  obtain ⟨hrounded, hlimit⟩ := size_eq_ok hsize
  exact if_pos (by omega)

/-- A number that a signed 32-bit word can hold. -/
def Fits (n : Nat) : Prop :=
  ∃ word : Int32, word.toInt = n

/-- Eight bytes for each variable, rounded up to a multiple of sixteen. -/
def Rounded (slots size : Nat) : Prop :=
  IsLeast {bytes | 16 ∣ bytes ∧ 8 * slots ≤ bytes} size

theorem toInt_ofNat {n : Nat} (h : n ≤ limit) : (Int32.ofNat n).toInt = n :=
  Int32.toInt_ofNat_of_lt (Nat.lt_succ_of_le h)

theorem fits_iff {n : Nat} : Fits n ↔ n ≤ limit := by
  constructor
  · rintro ⟨word, hword⟩
    have hlt := word.toInt_lt
    rw [limit]
    omega
  · intro h
    exact ⟨Int32.ofNat n, toInt_ofNat h⟩

theorem rounded_iff {slots size : Nat} : Rounded slots size ↔ size = (8 * slots + 15) / 16 * 16 := by
  have hleast : Rounded slots ((8 * slots + 15) / 16 * 16) := by
    refine ⟨⟨Nat.dvd_mul_left 16 _, by omega⟩, ?_⟩
    rintro bytes ⟨hmultiple, hroom⟩
    omega
  constructor
  · intro h
    exact h.unique hleast
  · rintro rfl
    exact hleast

theorem size_eq_ok_iff {slots size : Nat} :
    Frame.size slots = .ok size ↔ Rounded slots size ∧ Fits size := by
  rw [rounded_iff, fits_iff]
  constructor
  · exact size_eq_ok
  · rintro ⟨rfl, hlimit⟩
    exact if_pos hlimit

/-- The word that holds a number, if there is one. -/
def word? (n : Nat) : Option UInt64 :=
  if n < UInt64.size then some (.ofNat n) else none

/-- The low half of a word, as long as it is not beyond the largest distance. -/
def narrow (slots : UInt64) : Option UInt64 → Except EncodingError Int32
  | some bytes =>
    if bytes ≤ 2147483647 then .ok bytes.toUInt32.toInt32 else .error (.frameTooLarge slots.toNat)
  | none => .error (.frameTooLarge slots.toNat)

/-- The size of a frame, computed on words. Rounding clears the last four bits. -/
def wordSize (slots : UInt64) : Except EncodingError Int32 :=
  narrow slots (((word? (slots.toNat * 8)).bind fun bytes => word? (bytes.toNat + 15)).map (· &&& ~~~15))

/-- How far below the frame pointer a variable lives, computed on words. -/
def wordOffset (slot : UInt64) : Except EncodingError Int32 :=
  narrow slot ((word? (slot.toNat + 1)).bind fun count => word? (count.toNat * 8))

theorem word?_eq_some {n : Nat} {word : UInt64} (h : word? n = some word) : word.toNat = n := by
  rw [word?] at h
  split at h <;> cases h
  next hroom => exact UInt64.toNat_ofNat_of_lt' hroom

theorem word?_eq_none {n : Nat} (h : word? n = none) : UInt64.size ≤ n := by
  rw [word?] at h
  split at h <;> cases h
  next hroom => exact Nat.le_of_not_lt hroom

/-- As long as numbers only grow, it is enough to check the last of them. -/
theorem word?_bind {n : Nat} {f : Nat → Nat} (hgrows : n ≤ f n) :
    ((word? n).bind fun word => word? (f word.toNat)) = word? (f n) := by
  cases hword : word? n with
  | some word => rw [Option.bind_some, word?_eq_some hword]
  | none =>
      have hsize := word?_eq_none hword
      rw [Option.bind_none, word?, if_neg (by omega)]

theorem toNat_clear (a : UInt64) : (a &&& ~~~15).toNat = a.toNat / 16 * 16 := by
  have hmask : (~~~15 : UInt64).toBitVec = BitVec.allOnes 64 <<< 4 := rfl
  have hlt := a.toNat_lt
  rw [← UInt64.toNat_toBitVec, UInt64.toBitVec_and, hmask, ← BitVec.shiftLeft_ushiftRight, BitVec.toNat_shiftLeft,
    BitVec.toNat_ushiftRight, Nat.shiftLeft_eq, Nat.shiftRight_eq_div_pow, UInt64.toNat_toBitVec]
  omega

/-- A word that holds a number is cut without a loss, and a number that has no word is too large anyway. -/
theorem narrow_exact {slots : UInt64} {bytes : Option UInt64} {n : Nat}
    (hsome : ∀ word, bytes = some word → word.toNat = n) (hnone : bytes = none → limit < n) :
    (narrow slots bytes).map Int32.toInt =
      Except.map Nat.cast (if n ≤ limit then .ok n else .error (.frameTooLarge slots.toNat)) := by
  cases bytes with
  | none =>
      rw [if_neg (Nat.not_le.mpr (hnone rfl))]
      rfl
  | some word =>
      have hword := hsome word rfl
      have hle : word ≤ 2147483647 ↔ n ≤ limit := by
        rw [UInt64.le_iff_toNat_le, hword]
        rfl
      have hcut : word.toUInt32.toInt32 = Int32.ofNat n := by
        rw [← hword, ← UInt32.toInt32_ofNat', ← UInt64.toUInt32_ofNat', UInt64.ofNat_toNat]
      rw [narrow]
      by_cases hlimit : n ≤ limit
      · rw [if_pos (hle.mpr hlimit), if_pos hlimit, hcut, Except.map, toInt_ofNat hlimit]
        rfl
      · rw [if_neg (mt hle.mp hlimit), if_neg hlimit]
        rfl

theorem wordSize_exact (slots : UInt64) :
    (wordSize slots).map Int32.toInt = (Frame.size slots.toNat).map Nat.cast := by
  have hpadded : ((word? (slots.toNat * 8)).bind fun bytes => word? (bytes.toNat + 15)) =
      word? (slots.toNat * 8 + 15) := word?_bind (f := (· + 15)) (Nat.le_add_right _ _)
  rw [wordSize, hpadded]
  apply narrow_exact
  · intro word hword
    obtain ⟨padded, hpadded, rfl⟩ := Option.map_eq_some_iff.mp hword
    rw [toNat_clear, word?_eq_some hpadded, Nat.mul_comm slots.toNat]
  · intro hnone
    have hsize := word?_eq_none (Option.map_eq_none_iff.mp hnone)
    rw [UInt64.size] at hsize
    rw [limit]
    omega

theorem wordOffset_exact (slot : UInt64) :
    (wordOffset slot).map Int32.toInt = (Frame.offset slot.toNat).map Nat.cast := by
  have hbytes : ((word? (slot.toNat + 1)).bind fun count => word? (count.toNat * 8)) =
      word? ((slot.toNat + 1) * 8) := word?_bind (f := (· * 8)) (Nat.le_mul_of_pos_right _ (by decide))
  rw [wordOffset, hbytes]
  apply narrow_exact
  · intro word hword
    rw [word?_eq_some hword, Nat.mul_comm]
  · intro hnone
    have hsize := word?_eq_none hnone
    rw [UInt64.size] at hsize
    rw [limit]
    omega

/-- The addresses of so many bytes, from a distance below the frame pointer on. -/
def bytes (rbp : BitVec 64) (below count : Nat) : Set (BitVec 64) :=
  {addr | ∃ k < count, addr = rbp - .ofNat 64 below + .ofNat 64 k}

/-- What begins within a frame and ends at the frame pointer at the latest lies in the frame. -/
theorem bytes_subset {rbp : BitVec 64} {below count size : Nat} (hbelow : below ≤ size)
    (hcount : count ≤ below) : bytes rbp below count ⊆ bytes rbp size size := by
  rintro addr ⟨k, hk, rfl⟩
  refine ⟨size - below + k, by omega, ?_⟩
  obtain ⟨gap, rfl⟩ := Nat.exists_eq_add_of_le hbelow
  rw [Nat.add_sub_cancel_left, BitVec.ofNat_add, BitVec.ofNat_add]
  grind

/-- Of two runs of bytes, the one that begins farther away ends before the other begins. -/
theorem bytes_apart {rbp addr : BitVec 64} {below below' count : Nat} (hapart : below + count ≤ below')
    (hlimit : below' ≤ limit) (hnear : addr ∈ bytes rbp below count) : addr ∉ bytes rbp below' count := by
  obtain ⟨k, hk, rfl⟩ := hnear
  rintro ⟨k', hk', heq⟩
  have hsum : BitVec.ofNat 64 (below' + k) = BitVec.ofNat 64 (below + k') := by
    rw [BitVec.ofNat_add, BitVec.ofNat_add]
    grind
  have hnat := congrArg BitVec.toNat hsum
  rw [limit] at hlimit
  rw [BitVec.toNat_ofNat, BitVec.toNat_ofNat, Nat.mod_eq_of_lt (by omega), Nat.mod_eq_of_lt (by omega)] at hnat
  omega

/-- Each variable of a frame has bytes of its own, wherever the frame is. -/
structure Apart (slots size : Nat) : Prop where
  inside : ∀ slot < slots, ∃ offset, Frame.offset slot = .ok offset ∧
    ∀ rbp, bytes rbp offset 8 ⊆ bytes rbp size size
  disjoint : ∀ slot < slots, ∀ slot' < slots, slot ≠ slot' → ∀ offset offset', Frame.offset slot = .ok offset →
    Frame.offset slot' = .ok offset' → ∀ rbp, bytes rbp offset 8 ∩ bytes rbp offset' 8 = ∅

theorem apart_of_size {slots size : Nat} (hsize : Frame.size slots = .ok size) : Apart slots size := by
  obtain ⟨hrounded, hlimit⟩ := size_eq_ok hsize
  constructor
  · intro slot hslot
    exact ⟨8 * (slot + 1), offset_of_size hsize hslot, fun rbp => bytes_subset (by omega) (by omega)⟩
  · intro slot hslot slot' hslot' hne offset offset' hoffset hoffset' rbp
    rw [offset_eq_ok hoffset, offset_eq_ok hoffset', Set.eq_empty_iff_forall_notMem]
    rintro addr ⟨hmem, hmem'⟩
    rcases Nat.lt_or_gt_of_ne hne with hlt | hlt
    · exact bytes_apart (by omega) (by omega) hmem hmem'
    · exact bytes_apart (by omega) (by omega) hmem' hmem

section
variable {label : Type}

theorem stores_eq {slots : List Nat} (h : ∀ slot ∈ slots, Frame.offset slot = .ok (8 * (slot + 1))) :
    (slots.mapM fun slot => return Instr.store (← Frame.offset slot) .rax) =
      Except.ok (slots.map fun slot => (.store (8 * (slot + 1)) .rax : Instr label)) := by
  induction slots with
  | nil => rfl
  | cons slot slots ih =>
      rw [List.mapM_cons, ih fun slot hslot => h slot (List.mem_cons_of_mem _ hslot), h slot List.mem_cons_self]
      rfl

/-- The code for a frame of a size. -/
def setup (slots size : Nat) : List (Instr label) :=
  [.push .rbp, .mov .rbp .rsp] ++ if size = 0 then [] else
    [.reserve size, .clear .rax] ++ (List.range slots).map fun slot => .store (8 * (slot + 1)) .rax

theorem prologue_of_size {slots size : Nat} (hsize : Frame.size slots = .ok size) :
    Frame.prologue slots = .ok (setup slots size : List (Instr label)) := by
  have hstores : (List.range slots).mapM _ = Except.ok (_ : List (Instr label)) :=
    stores_eq fun slot hslot => offset_of_size hsize (List.mem_range.mp hslot)
  rw [Frame.prologue, hsize, setup]
  by_cases hzero : size = 0
  · rw [if_pos hzero]
    exact if_pos hzero
  · rw [if_neg hzero]
    refine (if_neg hzero).trans ?_
    rw [hstores]
    rfl

theorem prologue_eq_ok {slots : Nat} {code : List (Instr label)} (h : Frame.prologue slots = .ok code) :
    ∃ size, Frame.size slots = .ok size ∧ code = setup slots size := by
  obtain ⟨size, hsize, -⟩ := except_bind_eq_ok.mp h
  rw [prologue_of_size hsize] at h
  cases h
  exact ⟨size, hsize, rfl⟩

theorem target?_setup {slots size : Nat} : ∀ instr ∈ setup slots size, (instr : Instr label).target? = none := by
  intro instr hinstr
  rw [setup] at hinstr
  split at hinstr
  · simp only [List.append_nil, List.mem_cons, List.not_mem_nil, or_false] at hinstr
    rcases hinstr with rfl | rfl <;> rfl
  · simp only [List.mem_append, List.mem_cons, List.not_mem_nil, or_false, List.mem_map] at hinstr
    rcases hinstr with (rfl | rfl) | (rfl | rfl) | ⟨slot, -, rfl⟩ <;> rfl

end

end Frame

namespace Encoder

/-- Append instructions that refer to no label. -/
def append (encoder : Encoder) (code : List (Instr Label)) : Encoder :=
  { encoder with assembler := encoder.assembler.emitAll code }

/-- Clear variables one after the other; after a fault, those before it are cleared. -/
def clearInPlace : List Nat → Encoder → Except EncodingError Unit × Encoder
  | [], encoder => (.ok (), encoder)
  | slot :: rest, encoder =>
    match Frame.offset slot with
    | .error e => (.error e, encoder)
    | .ok offset => clearInPlace rest (encoder.append [.store offset .rax])

/-- Set up a frame with the code written in place: the encoder at the end, whatever happened. -/
def emitPrologueInPlace (encoder : Encoder) (slots : Nat) : Except EncodingError Unit × Encoder :=
  match Frame.size slots with
  | .error e => (.error e, encoder)
  | .ok size =>
    let entered := encoder.append [.push .rbp, .mov .rbp .rsp]
    if size = 0 then (.ok (), entered)
    else clearInPlace (List.range slots) (entered.append [.reserve size, .clear .rax])

theorem append_append (encoder : Encoder) (code more : List (Instr Label)) :
    (encoder.append code).append more = encoder.append (code ++ more) := by
  rw [append, append, append, Assembler.emitAll, Assembler.emitAll, Assembler.emitAll, List.foldl_append]

theorem emit_eq_append {encoder : Encoder} {code : List (Instr Label)} (h : ∀ instr ∈ code, instr.target? = none) :
    encoder.emit code = .ok (encoder.append code) := by
  rw [emit, List.filterMap_eq_nil_iff.mpr h]
  rfl

theorem clearInPlace_eq {slots : List Nat} (h : ∀ slot ∈ slots, Frame.offset slot = .ok (8 * (slot + 1)))
    (encoder : Encoder) : clearInPlace slots encoder =
      (.ok (), encoder.append (slots.map fun slot => .store (8 * (slot + 1)) .rax)) := by
  induction slots generalizing encoder with
  | nil => rfl
  | cons slot slots ih =>
      rw [clearInPlace, h slot List.mem_cons_self]
      refine (ih (fun slot hslot => h slot (List.mem_cons_of_mem _ hslot)) _).trans ?_
      rw [append_append]
      rfl

theorem emitPrologue_of_size {slots size : Nat} (encoder : Encoder) (hsize : Frame.size slots = .ok size) :
    ∃ next, encoder.emitPrologue slots = .ok next ∧ encoder.emitPrologueInPlace slots = (.ok (), next) := by
  refine ⟨encoder.append (Frame.setup slots size), ?_, ?_⟩
  · rw [emitPrologue, Frame.prologue_of_size hsize]
    exact emit_eq_append Frame.target?_setup
  · rw [emitPrologueInPlace, hsize, Frame.setup, ← append_append]
    by_cases hzero : size = 0
    · rw [if_pos hzero]
      exact if_pos hzero
    · rw [if_neg hzero, ← append_append]
      refine (if_neg hzero).trans (clearInPlace_eq ?_ _)
      intro slot hslot
      exact Frame.offset_of_size hsize (List.mem_range.mp hslot)

theorem emitPrologue_of_error {slots : Nat} {e : EncodingError} (encoder : Encoder)
    (hsize : Frame.size slots = .error e) :
    encoder.emitPrologue slots = .error e ∧ encoder.emitPrologueInPlace slots = (.error e, encoder) := by
  constructor
  · rw [emitPrologue, Frame.prologue, hsize]
    rfl
  · rw [emitPrologueInPlace, hsize]

end Encoder

/-- What is known of the frame of so many variables. -/
structure Frame.Laid (slots : UInt64) : Prop where
  /-- There is a frame exactly if its rounded size fits, and then it has this size. -/
  size : ∀ size, Frame.size slots.toNat = .ok size ↔ Rounded slots.toNat size ∧ Fits size
  /-- On words the same size is found, or the same fault. -/
  wordSize : (wordSize slots).map Int32.toInt = (Frame.size slots.toNat).map Nat.cast
  wordOffset : ∀ slot, (wordOffset slot).map Int32.toInt = (Frame.offset slot.toNat).map Nat.cast
  apart : ∀ size, Frame.size slots.toNat = .ok size → Apart slots.toNat size
  /-- If there is no frame, no code is written for it. -/
  refused : ∀ e, Frame.size slots.toNat = .error e → e = .frameTooLarge slots.toNat ∧ ∀ encoder : Encoder,
    encoder.emitPrologue slots.toNat = .error e ∧ encoder.emitPrologueInPlace slots.toNat = (.error e, encoder)
  /-- Otherwise all code is written, and no variable turns out to be too far away. -/
  written : ∀ size, Frame.size slots.toNat = .ok size → ∀ encoder : Encoder, ∃ next,
    encoder.emitPrologue slots.toNat = .ok next ∧ encoder.emitPrologueInPlace slots.toNat = (.ok (), next)

/-- For any number of variables that a word can hold, there is a frame in which they lie apart, or none that is
small enough, and then nothing is written. -/
theorem Frame.variables_apart (slots : UInt64) : Frame.Laid slots where
  size := fun _ => size_eq_ok_iff
  wordSize := wordSize_exact slots
  wordOffset := wordOffset_exact
  apart := fun _ => apart_of_size
  refused := fun _ hsize => ⟨size_eq_error hsize, fun encoder => encoder.emitPrologue_of_error hsize⟩
  written := fun _ hsize encoder => encoder.emitPrologue_of_size hsize

/-- The largest frame, and one variable too many. The distance of this variable would still fit. -/
theorem Frame.variables_apart_largest :
    Frame.size 268435454 = .ok 2147483632 ∧ Frame.Apart 268435454 2147483632 ∧
      Frame.offset 268435454 = .ok 2147483640 ∧ Frame.size 268435455 = .error (.frameTooLarge 268435455) ∧
      ∀ encoder : Encoder, encoder.emitPrologueInPlace 268435455 = (.error (.frameTooLarge 268435455), encoder) := by
  have hlargest : Frame.size 268435454 = .ok 2147483632 := rfl
  have hrefused : Frame.size 268435455 = .error (.frameTooLarge 268435455) := rfl
  refine ⟨hlargest, (Frame.variables_apart 268435454).apart _ hlargest, rfl, hrefused, fun encoder => ?_⟩
  exact (((Frame.variables_apart 268435455).refused _ hrefused).2 encoder).2

end GotoLang.X64
