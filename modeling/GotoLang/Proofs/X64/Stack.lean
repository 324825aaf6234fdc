import Mathlib.Data.Nat.Init
import GotoLang.Proofs.X64.Cpu

/-!
# Words on the machine stack

All that generated code keeps in memory lies in one piece on the stack: from the stack pointer up to the
end of the part that the call may use, there is a list of words. Pushing, popping and changing a
variable are operations on that list.
-/
namespace GotoLang.X64

namespace Memory

theorem length_littleEndian (width : Nat) (value : Int) :
    (littleEndian width value).length = width := by
  induction width generalizing value with
  | zero => rfl
  | succ width ih => rw [littleEndian, List.length_cons, ih]

theorem decode_littleEndian (width value : Nat) :
    decode (littleEndian width value) = value % Nat.pow 256 width := by
  induction width generalizing value with
  | zero => exact (Nat.mod_one value).symm
  | succ width ih =>
      have hlow : ((value : Int).emod 256).toNat.toUInt8.toNat = value % 256 := by
        have h : (value : Int).emod 256 = ((value % 256 : Nat) : Int) := rfl
        rw [h, Int.toNat_natCast, Nat.toUInt8_eq, UInt8.toNat_ofNat']
        omega
      have hhigh : (value : Int).ediv 256 = ((value / 256 : Nat) : Int) := rfl
      rw [littleEndian, decode, List.foldr_cons, hlow, hhigh]
      have hrest := ih (value / 256)
      rw [decode] at hrest
      have hpow : Nat.pow 256 (width + 1) = 256 * Nat.pow 256 width := Nat.mul_comm _ _
      rw [hrest, hpow, Nat.mod_mul]

theorem length_read (memory : Memory) (addr count : Nat) :
    (memory.read addr count).length = count := by
  rw [read, List.length_map, List.length_range]

theorem read_add (memory : Memory) (addr count more : Nat) :
    memory.read addr (count + more) = memory.read addr count ++ memory.read (addr + count) more := by
  rw [read, read, read, List.range_add, List.map_append, List.map_map]
  congr 1
  exact List.map_congr_left fun i _ => congrArg memory (Nat.add_assoc _ _ _).symm

theorem read_congr {memory memory' : Memory} {addr count : Nat}
    (h : ∀ x, addr ≤ x → x < addr + count → memory x = memory' x) :
    memory.read addr count = memory'.read addr count := by
  rw [read, read]
  refine List.map_congr_left fun i hi => h _ (Nat.le_add_right _ _) ?_
  have := List.mem_range.mp hi
  omega

theorem write_of_lt {memory : Memory} {addr x : Nat} {bytes : List UInt8} (h : x < addr) :
    memory.write addr bytes x = memory x := by
  rw [write, if_neg (by omega)]

theorem write_of_le {memory : Memory} {addr x : Nat} {bytes : List UInt8}
    (h : addr + bytes.length ≤ x) : memory.write addr bytes x = memory x := by
  rw [write, if_pos (by omega), List.getElem?_eq_none (by omega), Option.getD_none]

theorem read_write (memory : Memory) (addr : Nat) (bytes : List UInt8) :
    (memory.write addr bytes).read addr bytes.length = bytes := by
  apply List.ext_getElem?
  intro i
  rw [read, List.getElem?_map]
  by_cases hi : i < bytes.length
  · rw [List.getElem?_range hi, Option.map_some, write, if_pos (by omega), Nat.add_sub_cancel_left,
      List.getElem?_eq_getElem hi, Option.getD_some]
  · rw [List.getElem?_eq_none (by simpa using hi), List.getElem?_eq_none (by omega), Option.map_none]

theorem word_congr {memory memory' : Memory} {addr : Nat}
    (h : ∀ x, addr ≤ x → x < addr + 8 → memory x = memory' x) :
    memory.word addr = memory'.word addr := by
  rw [word, word, read_congr h]

theorem word_write (memory : Memory) (addr : Nat) (value : BitVec 64) :
    (memory.write addr (littleEndian 8 value.toNat)).word addr = value := by
  have hread := read_write memory addr (littleEndian 8 value.toNat)
  rw [length_littleEndian] at hread
  rw [word, hread, decode_littleEndian, Nat.mod_eq_of_lt value.isLt, BitVec.ofNat_toNat,
    BitVec.setWidth_eq]

theorem word_write_of_disjoint (memory : Memory) {addr other : Nat} (value : BitVec 64)
    (h : other + 8 ≤ addr ∨ addr + 8 ≤ other) :
    (memory.write addr (littleEndian 8 value.toNat)).word other = memory.word other := by
  apply word_congr
  intro x hx hlt
  rcases h with h | h
  · exact write_of_lt (by omega)
  · exact write_of_le (by rw [length_littleEndian]; omega)

/-- These words lie one above the other from an address on. -/
def Words (memory : Memory) (addr : Nat) (ws : List (BitVec 64)) : Prop :=
  ∀ k w, ws[k]? = some w → memory.word (addr + 8 * k) = w

namespace Words
variable {memory memory' : Memory} {addr : Nat} {ws : List (BitVec 64)}

theorem congr (h : Words memory addr ws) (heq : ∀ x, addr ≤ x → memory x = memory' x) :
    Words memory' addr ws := by
  intro k w hk
  rw [← h k w hk]
  exact word_congr fun x hx _ => (heq x (by omega)).symm

theorem drop (h : Words memory addr ws) (n : Nat) : Words memory (addr + 8 * n) (ws.drop n) := by
  intro k w hk
  rw [List.getElem?_drop] at hk
  rw [← h (n + k) w hk]
  congr 1
  omega

theorem append {ws' : List (BitVec 64)} (h : Words memory addr ws)
    (h' : Words memory (addr + 8 * ws.length) ws') : Words memory addr (ws ++ ws') := by
  intro k w hk
  by_cases hlt : k < ws.length
  · rw [List.getElem?_append_left hlt] at hk
    exact h k w hk
  · rw [List.getElem?_append_right (by omega)] at hk
    rw [← h' _ w hk]
    congr 1
    omega

/-- Whatever is in memory, it is some words. -/
theorem exist (memory : Memory) (addr count : Nat) :
    ∃ ws, ws.length = count ∧ Words memory addr ws := by
  refine ⟨(List.range count).map fun k => memory.word (addr + 8 * k), by simp, ?_⟩
  intro k w hk
  simp only [List.getElem?_map, Option.map_eq_some_iff] at hk
  obtain ⟨i, hi, rfl⟩ := hk
  obtain ⟨-, rfl⟩ := List.getElem?_eq_some_iff.mp hi
  rw [List.getElem_range]

theorem cons (h : Words memory (addr + 8) ws) (value : BitVec 64) :
    Words (memory.write addr (littleEndian 8 value.toNat)) addr (value :: ws) := by
  intro k w hk
  cases k with
  | zero =>
      cases hk
      exact word_write memory addr value
  | succ k =>
      rw [List.getElem?_cons_succ] at hk
      rw [word_write_of_disjoint memory value (by omega), ← h k w hk]
      congr 1
      omega

theorem set (h : Words memory addr ws) (k : Nat) (value : BitVec 64) :
    Words (memory.write (addr + 8 * k) (littleEndian 8 value.toNat)) addr (ws.set k value) := by
  intro i w hi
  rw [List.getElem?_set] at hi
  split at hi
  · next heq =>
      subst heq
      split at hi
      · cases hi
        exact word_write memory _ value
      · cases hi
  · next hne =>
      rw [word_write_of_disjoint memory value (by omega)]
      exact h i w hi

end Words

end Memory

namespace Cpu

section
variable (cpu : Cpu) (rip value : BitVec 64) (r : Register) (flags : Option Flags)

@[simp] theorem rip_goto : (cpu.goto rip).rip = rip := rfl
@[simp] theorem register_goto : (cpu.goto rip).register = cpu.register := rfl
@[simp] theorem flags_goto : (cpu.goto rip).flags = cpu.flags := rfl
@[simp] theorem memory_goto : (cpu.goto rip).memory = cpu.memory := rfl
@[simp] theorem out_goto : (cpu.goto rip).out = cpu.out := rfl
@[simp] theorem err_goto : (cpu.goto rip).err = cpu.err := rfl

@[simp] theorem rip_set : (cpu.set r value).rip = cpu.rip := rfl
@[simp] theorem register_set (r' : Register) :
    (cpu.set r value).register r' = if r' = r then value else cpu.register r' := rfl
@[simp] theorem flags_set : (cpu.set r value).flags = cpu.flags := rfl
@[simp] theorem memory_set : (cpu.set r value).memory = cpu.memory := rfl
@[simp] theorem out_set : (cpu.set r value).out = cpu.out := rfl
@[simp] theorem err_set : (cpu.set r value).err = cpu.err := rfl

@[simp] theorem rip_setFlags : (cpu.setFlags flags).rip = cpu.rip := rfl
@[simp] theorem register_setFlags : (cpu.setFlags flags).register = cpu.register := rfl
@[simp] theorem flags_setFlags : (cpu.setFlags flags).flags = flags := rfl
@[simp] theorem memory_setFlags : (cpu.setFlags flags).memory = cpu.memory := rfl
@[simp] theorem out_setFlags : (cpu.setFlags flags).out = cpu.out := rfl
@[simp] theorem err_setFlags : (cpu.setFlags flags).err = cpu.err := rfl

end

/-- The state after a push. -/
def pushed (cpu : Cpu) (value : BitVec 64) : Cpu :=
  { cpu.set .rsp (cpu.register .rsp - 8) with
    memory := cpu.memory.write (cpu.register .rsp - 8).toNat (littleEndian 8 value.toNat) }

/-- The state after a pop, apart from where the value goes. -/
def popped (cpu : Cpu) : Cpu :=
  cpu.set .rsp (cpu.register .rsp + 8)

section
variable (cpu : Cpu) (value : BitVec 64)

@[simp] theorem rip_pushed : (cpu.pushed value).rip = cpu.rip := rfl
@[simp] theorem register_pushed (r : Register) : (cpu.pushed value).register r =
    if r = .rsp then cpu.register .rsp - 8 else cpu.register r := rfl
@[simp] theorem flags_pushed : (cpu.pushed value).flags = cpu.flags := rfl
@[simp] theorem out_pushed : (cpu.pushed value).out = cpu.out := rfl
@[simp] theorem err_pushed : (cpu.pushed value).err = cpu.err := rfl

@[simp] theorem rip_popped : cpu.popped.rip = cpu.rip := rfl
@[simp] theorem register_popped (r : Register) : cpu.popped.register r =
    if r = .rsp then cpu.register .rsp + 8 else cpu.register r := rfl
@[simp] theorem flags_popped : cpu.popped.flags = cpu.flags := rfl
@[simp] theorem memory_popped : cpu.popped.memory = cpu.memory := rfl
@[simp] theorem out_popped : cpu.popped.out = cpu.out := rfl
@[simp] theorem err_popped : cpu.popped.err = cpu.err := rfl

end

section
variable {process : Process} {cpu : Cpu}

theorem toNat_rsp_sub (h : 8 ≤ (cpu.register .rsp).toNat) :
    (cpu.register .rsp - 8).toNat = (cpu.register .rsp).toNat - 8 :=
  BitVec.toNat_sub_of_le h

theorem push_eq (hlow : process.low + 8 ≤ (cpu.register .rsp).toNat)
    (hhigh : (cpu.register .rsp).toNat ≤ process.high) (value : BitVec 64) :
    cpu.push process value = .next (cpu.pushed value) := by
  have hstack : process.onStack (cpu.register .rsp - 8).toNat
      (littleEndian 8 value.toNat).length = true := by
    rw [Process.onStack, Memory.length_littleEndian, toNat_rsp_sub (by omega)]
    simp only [Bool.and_eq_true, decide_eq_true_eq]
    omega
  rw [push, store, if_pos hstack]
  rfl

theorem pop_eq {addr : Nat} {w : BitVec 64} (hrsp : (cpu.register .rsp).toNat = addr)
    (hlow : process.low ≤ addr) (hhigh : addr + 8 ≤ process.high) (hword : cpu.memory.word addr = w)
    (use : BitVec 64 → Cpu → Transition Cpu Halt) : cpu.pop process use = use w cpu.popped := by
  have hstack : process.onStack addr 8 = true := by
    rw [Process.onStack, Bool.and_eq_true, decide_eq_true_eq, decide_eq_true_eq]
    exact ⟨hlow, hhigh⟩
  rw [pop, fetch, hrsp, if_pos hstack, hword]
  rfl

end

/-- These words are on the stack, and nothing else up to its end. -/
structure Holds (process : Process) (cpu : Cpu) (ws : List (BitVec 64)) : Prop where
  low : process.low ≤ (cpu.register .rsp).toNat
  high : (cpu.register .rsp).toNat + 8 * ws.length = process.high
  words : cpu.memory.Words (cpu.register .rsp).toNat ws

namespace Holds
variable {process : Process} {cpu cpu' : Cpu} {ws : List (BitVec 64)}

theorem congr (h : cpu.Holds process ws) (hrsp : cpu'.register .rsp = cpu.register .rsp)
    (hmemory : ∀ x, (cpu.register .rsp).toNat ≤ x → cpu'.memory x = cpu.memory x) :
    cpu'.Holds process ws := by
  refine ⟨?_, ?_, ?_⟩
  · rw [hrsp]
    exact h.low
  · rw [hrsp]
    exact h.high
  · rw [hrsp]
    exact h.words.congr fun x hx => (hmemory x hx).symm

theorem of_eq (h : cpu.Holds process ws) (hrsp : cpu'.register .rsp = cpu.register .rsp)
    (hmemory : cpu'.memory = cpu.memory) : cpu'.Holds process ws :=
  h.congr hrsp fun x _ => congrFun hmemory x

theorem push (h : cpu.Holds process ws) (hroom : process.low + 8 * (ws.length + 1) ≤ process.high)
    (value : BitVec 64) : cpu.push process value = .next (cpu.pushed value) ∧
      (cpu.pushed value).Holds process (value :: ws) := by
  have hhigh := h.high
  have hrsp : (cpu.register .rsp - 8).toNat = (cpu.register .rsp).toNat - 8 := toNat_rsp_sub (by omega)
  constructor
  · exact push_eq (by omega) (by omega) value
  · have hwords := h.words
    have htop : (cpu.register .rsp).toNat = (cpu.register .rsp - 8).toNat + 8 := by omega
    refine ⟨?_, ?_, ?_⟩
    · show process.low ≤ (cpu.register .rsp - 8).toNat
      omega
    · show (cpu.register .rsp - 8).toNat + 8 * (ws.length + 1) = process.high
      omega
    · rw [htop] at hwords
      exact hwords.cons value

theorem fetch (h : cpu.Holds process ws) {addr w : BitVec 64} {k : Nat}
    (haddr : addr.toNat = (cpu.register .rsp).toNat + 8 * k) (hk : ws[k]? = some w)
    (use : BitVec 64 → Transition Cpu Halt) : cpu.fetch process addr use = use w := by
  have hlow := h.low
  have hhigh := h.high
  have hlt := (List.getElem?_eq_some_iff.mp hk).1
  have hstack : process.onStack addr.toNat 8 = true := by
    rw [Process.onStack, haddr]
    simp only [Bool.and_eq_true, decide_eq_true_eq]
    omega
  rw [Cpu.fetch, if_pos hstack, haddr, h.words k w hk]

theorem pop {w : BitVec 64} (h : cpu.Holds process (w :: ws))
    (hhigh : process.high < 18446744073709551616)
    (use : BitVec 64 → Cpu → Transition Cpu Halt) :
    cpu.pop process use = use w cpu.popped ∧ cpu.popped.Holds process ws := by
  constructor
  · rw [Cpu.pop, h.fetch (k := 0) rfl rfl]
    rfl
  · have htop := h.high
    have hlow := h.low
    rw [List.length_cons] at htop
    have hrsp : (cpu.register .rsp + 8).toNat = (cpu.register .rsp).toNat + 8 := by
      apply BitVec.toNat_add_of_lt
      show (cpu.register .rsp).toNat + 8 < _
      omega
    refine ⟨?_, ?_, ?_⟩
    · show process.low ≤ (cpu.register .rsp + 8).toNat
      omega
    · show (cpu.register .rsp + 8).toNat + 8 * ws.length = process.high
      omega
    · show cpu.memory.Words (cpu.register .rsp + 8).toNat ws
      rw [hrsp]
      exact h.words.drop 1

theorem store (h : cpu.Holds process ws) {addr : BitVec 64} {k : Nat}
    (haddr : addr.toNat = (cpu.register .rsp).toNat + 8 * k) (hk : k < ws.length)
    (value : BitVec 64) : ∃ cpu', cpu.store process addr (littleEndian 8 value.toNat) = .next cpu' ∧
      cpu'.Holds process (ws.set k value) ∧
      cpu' = { cpu with memory := cpu'.memory } := by
  have hlow := h.low
  have hhigh := h.high
  have hstack : process.onStack addr.toNat (littleEndian 8 value.toNat).length = true := by
    rw [Process.onStack, Memory.length_littleEndian, haddr]
    simp only [Bool.and_eq_true, decide_eq_true_eq]
    omega
  refine ⟨{ cpu with memory := cpu.memory.write addr.toNat (littleEndian 8 value.toNat) }, ?_, ?_, rfl⟩
  · rw [Cpu.store, if_pos hstack]
  · refine ⟨hlow, ?_, ?_⟩
    · rw [List.length_set]
      exact hhigh
    · rw [haddr]
      exact h.words.set k value

/-- The stack pointer is moved up over some words. -/
theorem raise (h : cpu.Holds process ws) {k : Nat}
    (hrsp : (cpu'.register .rsp).toNat = (cpu.register .rsp).toNat + 8 * k) (hk : k ≤ ws.length)
    (hmemory : cpu'.memory = cpu.memory) : cpu'.Holds process (ws.drop k) := by
  have hlow := h.low
  have hhigh := h.high
  refine ⟨by omega, ?_, ?_⟩
  · rw [List.length_drop]
    omega
  · rw [hrsp, hmemory]
    exact h.words.drop k

/-- The stack pointer is moved down, to wherever there is room. -/
theorem lower (h : cpu.Holds process ws) {k : Nat}
    (hrsp : (cpu'.register .rsp).toNat + 8 * k = (cpu.register .rsp).toNat)
    (hlow : process.low ≤ (cpu'.register .rsp).toNat) (hmemory : cpu'.memory = cpu.memory) :
    ∃ pad, pad.length = k ∧ cpu'.Holds process (pad ++ ws) := by
  have hhigh := h.high
  obtain ⟨pad, hpad, hwords⟩ := Memory.Words.exist cpu'.memory (cpu'.register .rsp).toNat k
  refine ⟨pad, hpad, hlow, ?_, hwords.append ?_⟩
  · rw [List.length_append]
    omega
  · rw [hpad, hrsp, hmemory]
    exact h.words

end Holds

end Cpu

end GotoLang.X64
