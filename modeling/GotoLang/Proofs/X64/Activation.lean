import GotoLang.Proofs.X64.Printing

/-!
# The frame of a running program

From the stack pointer up there are on the stack: what of the evaluation stack is in memory, perhaps a
word that is there to align the frame, the variables with the first one on top, the frame pointer of
the caller, and the address to return to. The instructions that operations are made of change the
evaluation stack or one of the variables and leave the rest as it is.
-/
namespace GotoLang.X64

/-- What a call of the program finds and has to leave, and how its frame is aligned. -/
structure Activation where
  pad : List (BitVec 64)
  saved : BitVec 64
  back : BitVec 64

namespace Activation

/-- The frame with these variables, from its lower end on. -/
def words (activation : Activation) (slots : Array Word) : List (BitVec 64) :=
  activation.pad ++ ((slots.toList.map Int64.toBitVec).reverse ++ [activation.saved, activation.back])

variable (activation : Activation) {slots : Array Word}

theorem length_words (slots : Array Word) :
    (activation.words slots).length = activation.pad.length + (slots.size + 2) := by
  simp [words]

/-- The frame without its variables. -/
theorem drop_words (stack : List (BitVec 64)) (slots : Array Word) :
    (stack ++ activation.words slots).drop (stack.length + (activation.pad.length + slots.size)) =
      [activation.saved, activation.back] := by
  rw [words, ← List.append_assoc, ← List.append_assoc]
  apply List.drop_left'
  simp

theorem reverse_set {α : Type} {l : List α} {i : Nat} (hi : i < l.length) (value : α) :
    l.reverse.set (l.length - 1 - i) value = (l.set i value).reverse := by
  apply List.ext_getElem?
  intro j
  by_cases hj : j < l.length
  · rw [List.getElem?_reverse (by rwa [List.length_set]), List.length_set, List.getElem?_set,
      List.getElem?_set, List.length_reverse, List.getElem?_reverse hj]
    by_cases heq : l.length - 1 - i = j
    · rw [if_pos heq, if_pos (by omega), if_pos (by omega), if_pos (by omega)]
    · rw [if_neg heq, if_neg (by omega)]
  · rw [List.getElem?_eq_none (by simp; omega), List.getElem?_eq_none (by simp; omega)]

/-- A variable by its place in the frame. -/
theorem getElem?_words {i : Nat} {value : Word} (h : slots[i]? = some value) :
    (activation.words slots)[activation.pad.length + (slots.size - 1 - i)]? =
      some value.toBitVec := by
  have hi := (Array.getElem?_eq_some_iff.mp h).1
  have hlength : (slots.toList.map Int64.toBitVec).length = slots.size := by simp
  rw [words, List.getElem?_append_right (by omega), Nat.add_sub_cancel_left,
    List.getElem?_append_left (by rw [List.length_reverse]; omega),
    List.getElem?_reverse (by omega), hlength]
  have hindex : slots.size - 1 - (slots.size - 1 - i) = i := by omega
  simp [hindex, h]

theorem set_words {i : Nat} (hi : i < slots.size) (value : Word) :
    (activation.words slots).set (activation.pad.length + (slots.size - 1 - i)) value.toBitVec =
      activation.words (slots.setIfInBounds i value) := by
  have hlength : (slots.toList.map Int64.toBitVec).length = slots.size := by simp
  rw [words, words, List.set_append_right _ _ (by omega), Nat.add_sub_cancel_left,
    List.set_append_left _ _ (by rw [List.length_reverse]; omega)]
  have hset := reverse_set (l := slots.toList.map Int64.toBitVec) (i := i) (by omega) value.toBitVec
  rw [hlength] at hset
  rw [hset, Array.toList_setIfInBounds, List.map_set]

/-- Whatever the words of a frame are, they are those of some variables. -/
theorem exists_words {n : Nat} {ws : List (BitVec 64)} (h : n ≤ ws.length) (saved back : BitVec 64) :
    ∃ pad slots, pad.length + n = ws.length ∧ slots.size = n ∧
      words ⟨pad, saved, back⟩ slots = ws ++ [saved, back] := by
  refine ⟨ws.take (ws.length - n), ((ws.drop (ws.length - n)).reverse.map Int64.ofBitVec).toArray,
    ?_, ?_, ?_⟩
  · rw [List.length_take]
    omega
  · rw [List.size_toArray, List.length_map, List.length_reverse, List.length_drop]
    omega
  · have hsame : Int64.toBitVec ∘ Int64.ofBitVec = id := rfl
    rw [words, List.map_map, hsame, List.map_id, List.reverse_reverse, ← List.append_assoc,
      List.take_append_drop]

end Activation

/-- A running program has these words of its evaluation stack in memory, above the frame with these
variables, and has written this. -/
structure Cpu.Stacked (process : Process) (activation : Activation) (slots : Array Word)
    (out err : Bytes) (stack : List Word) (cpu : Cpu) : Prop where
  rbp : (cpu.register .rbp).toNat + 16 = process.high
  holds : cpu.Holds process (stack.map Int64.toBitVec ++ activation.words slots)
  out : cpu.out = out
  err : cpu.err = err

namespace Cpu.Stacked
variable {process : Process} {activation : Activation} {slots : Array Word} {out err : Bytes}
  {stack : List Word} {cpu cpu' : Cpu} {next : BitVec 64}

theorem of_keeps (h : cpu.Stacked process activation slots out err stack) (hkeeps : cpu.Keeps cpu') :
    cpu'.Stacked process activation slots out err stack := by
  refine ⟨?_, h.holds.of_eq hkeeps.rsp hkeeps.memory, hkeeps.out.trans h.out, hkeeps.err.trans h.err⟩
  rw [hkeeps.rbp]
  exact h.rbp

/-- There is room for so many bytes below the stack. -/
def Room (process : Process) (activation : Activation) (slots : Array Word) (stack : List Word)
    (count : Nat) : Prop :=
  process.low + 8 * (stack.length + (activation.words slots).length) + count ≤ process.high

theorem push (h : cpu.Stacked process activation slots out err stack)
    (hroom : Room process activation slots stack 8) {src : Register}
    (hhas : process.Has cpu.rip (.push src) next) {value : Word}
    (hvalue : cpu.register src = value.toBitVec) :
    Moves (Cpu.step process) cpu ((cpu.goto next).pushed value.toBitVec) ∧
      ((cpu.goto next).pushed value.toBitVec).Stacked process activation slots out err
        (value :: stack) := by
  have hholds : (cpu.goto next).Holds process _ := h.holds.of_eq rfl rfl
  obtain ⟨hpush, hpushed⟩ := hholds.push (by rw [Room] at hroom; simp; omega) (cpu.register src)
  rw [hvalue] at hpush hpushed
  refine ⟨hhas.moves ?_, h.rbp, hpushed, h.out, h.err⟩
  rw [← hpush, ← hvalue]
  rfl

theorem pop {value : Word} (h : cpu.Stacked process activation slots out err (value :: stack))
    (hhigh : process.high < 18446744073709551616) {dst : Register} (hrsp : dst ≠ .rsp)
    (hrbp : dst ≠ .rbp) (hhas : process.Has cpu.rip (.pop dst) next) :
    Moves (Cpu.step process) cpu ((cpu.goto next).popped.set dst value.toBitVec) ∧
      ((cpu.goto next).popped.set dst value.toBitVec).Stacked process activation slots out err
        stack := by
  have hholds : (cpu.goto next).Holds process (value.toBitVec ::
    (stack.map Int64.toBitVec ++ activation.words slots)) := h.holds.of_eq rfl rfl
  obtain ⟨hpop, hpopped⟩ := hholds.pop hhigh fun value cpu => .next (cpu.set dst value)
  refine ⟨hhas.moves hpop, ?_, hpopped.of_eq ?_ rfl, h.out, h.err⟩
  · rw [register_set, if_neg (Ne.symm hrbp)]
    exact h.rbp
  · rw [register_set, if_neg (Ne.symm hrsp)]

/-- The address of a variable, by its place among the words on the stack. -/
theorem address (h : cpu.Stacked process activation slots out err stack) {i : Nat}
    (hi : i < slots.size) :
    (cpu.register .rbp - .ofNat 64 (8 * (i + 1))).toNat = (cpu.register .rsp).toNat +
      8 * (stack.length + (activation.pad.length + (slots.size - 1 - i))) := by
  have hrbp := h.rbp
  have hhigh := h.holds.high
  rw [List.length_append, List.length_map, activation.length_words] at hhigh
  have hlt := (cpu.register .rbp).isLt
  have hsmall : (BitVec.ofNat 64 (8 * (i + 1))).toNat = 8 * (i + 1) := by
    rw [BitVec.toNat_ofNat, Nat.mod_eq_of_lt (by omega)]
  rw [BitVec.toNat_sub_of_le, hsmall]
  · omega
  · rw [BitVec.le_def, hsmall]
    omega

theorem load (h : cpu.Stacked process activation slots out err stack) {i : Nat} {value : Word}
    (hvalue : slots[i]? = some value) {dst : Register} (hrsp : dst ≠ .rsp) (hrbp : dst ≠ .rbp)
    (hhas : process.Has cpu.rip (.load dst (8 * (i + 1))) next) :
    Moves (Cpu.step process) cpu ((cpu.goto next).set dst value.toBitVec) ∧
      ((cpu.goto next).set dst value.toBitVec).Stacked process activation slots out err stack := by
  have hi := (Array.getElem?_eq_some_iff.mp hvalue).1
  have hholds : (cpu.goto next).Holds process _ := h.holds.of_eq rfl rfl
  have hget : (stack.map Int64.toBitVec ++ activation.words slots)[stack.length +
      (activation.pad.length + (slots.size - 1 - i))]? = some value.toBitVec := by
    rw [List.getElem?_append_right (by simp), List.length_map, Nat.add_sub_cancel_left]
    exact activation.getElem?_words hvalue
  have hfetch := hholds.fetch (h.address hi) hget fun value => .next ((cpu.goto next).set dst value)
  refine ⟨hhas.moves hfetch, ?_, h.holds.of_eq ?_ rfl, h.out, h.err⟩
  · rw [register_set, if_neg (Ne.symm hrbp)]
    exact h.rbp
  · rw [register_set, if_neg (Ne.symm hrsp)]
    rfl

theorem store (h : cpu.Stacked process activation slots out err stack) {i : Nat} (hi : i < slots.size)
    {src : Register} {value : Word} (hvalue : cpu.register src = value.toBitVec)
    (hhas : process.Has cpu.rip (.store (8 * (i + 1)) src) next) :
    ∃ memory, Moves (Cpu.step process) cpu { cpu.goto next with memory } ∧
      Cpu.Stacked process activation (slots.setIfInBounds i value) out err stack
        { cpu.goto next with memory } := by
  have hholds : (cpu.goto next).Holds process _ := h.holds.of_eq rfl rfl
  have hlength := activation.length_words slots
  obtain ⟨cpu', hstore, hholds', hcpu'⟩ := hholds.store (h.address hi)
    (by rw [List.length_append, List.length_map]; omega) value.toBitVec
  have hset := List.set_append_right (s := stack.map Int64.toBitVec) (t := activation.words slots)
    (stack.length + (activation.pad.length + (slots.size - 1 - i))) value.toBitVec (by simp)
  rw [List.length_map, Nat.add_sub_cancel_left, activation.set_words hi] at hset
  rw [hset] at hholds'
  refine ⟨cpu'.memory, hhas.moves ?_, h.rbp, ?_, h.out, h.err⟩
  · rw [← hcpu', ← hstore, ← hvalue]
    rfl
  · rw [← hcpu']
    exact hholds'

/-- A call of a routine that prints. -/
theorem print (h : cpu.Stacked process activation slots out err stack)
    (hroom : Room process activation slots stack 48) {ty : Ty} (hprints : process.Prints ty)
    {value : Word} (hrdi : cpu.register .rdi = value.toBitVec)
    (hhas : process.Has cpu.rip (.call (process.label (CodeGeneration.printer ty))) next) :
    process.Advances cpu fun cpu' => cpu'.rip = next ∧ cpu'.Stacked process activation slots
      (out ++ Bytes.ofText (Machine.printed value ty)) err stack := by
  have hholds : (cpu.goto next).Holds process _ := h.holds.of_eq rfl rfl
  rw [Room] at hroom
  obtain ⟨hpush, hpushed⟩ := hholds.push (by simp; omega) next
  have hcall : (cpu.goto next).perform process (.call (process.label (CodeGeneration.printer ty))) =
      .next (((cpu.goto next).pushed next).goto (process.label (CodeGeneration.printer ty))) := by
    simp only [perform, rip_goto, hpush]
  refine .head (hhas.moves hcall) (.mono
    (hprints _ value next _ rfl hrdi (hpushed.of_eq rfl rfl) (by simp; omega)) ?_)
  intro cpu' hprinted
  refine ⟨hprinted.rip, ?_, hprinted.holds, ?_, hprinted.err.trans h.err⟩
  · rw [hprinted.rbp]
    exact h.rbp
  · rw [hprinted.out]
    exact congrArg (· ++ _) h.out

end Cpu.Stacked

section
variable {process : Process} {activation : Activation} {slots : Array Word} {out err : Bytes}
  {stack : List Word} {cpu : Cpu} {last : BitVec 64}

/-- The program has returned to its caller with a status. -/
structure Cpu.Returned (process : Process) (activation : Activation) (status : Word)
    (out err : Bytes) (cpu : Cpu) : Prop where
  rip : cpu.rip = activation.back
  rax : cpu.register .rax = status.toBitVec
  rsp : (cpu.register .rsp).toNat = process.high
  rbp : cpu.register .rbp = activation.saved
  out : cpu.out = out
  err : cpu.err = err

theorem leads_epilogue (hleave : process.Contains (.place .leave :: Code.script Frame.epilogue))
    (hhigh : process.high < 18446744073709551616) (hrip : cpu.rip = process.label .leave)
    {status : Word} (hrax : cpu.register .rax = status.toBitVec)
    (h : cpu.Stacked process activation slots out err stack) :
    process.Leads cpu (Cpu.Returned process activation status out err) := by
  obtain ⟨first, last, hlabel, n₁, h₁, n₂, h₂, n₃, h₃, -⟩ := hleave
  rw [← hrip.trans hlabel] at h₁
  have hrbp := h.rbp
  have htop := h.holds.high
  rw [List.length_append, List.length_map, activation.length_words] at htop
  have hframe : ((cpu.goto n₁).set .rsp (cpu.register .rbp)).Holds process
      [activation.saved, activation.back] := by
    rw [← activation.drop_words (stack.map Int64.toBitVec) slots]
    refine h.holds.raise ?_ ?_ rfl
    · show (cpu.register .rbp).toNat = _
      rw [List.length_map]
      omega
    · rw [List.length_append, activation.length_words]
      omega
  refine .step h₁ rfl (.pop h₂ hframe hhigh fun hpopped => ?_)
  refine .ret h₃ (hpopped.of_eq rfl rfl) hhigh fun hleft => .now ⟨rfl, hrax, ?_, rfl, h.out, h.err⟩
  exact hleft.high

/-- Clearing variables one by one. -/
theorem leads_clear {cleared : List Nat} (hcleared : ∀ i ∈ cleared, i < slots.size)
    (hstands : process.Stands (Code.script (cleared.map fun i => .store (8 * (i + 1)) .rax)) cpu.rip
      last)
    (hrax : cpu.register .rax = (0 : Word).toBitVec)
    (h : cpu.Stacked process activation slots out err stack) :
    process.Leads cpu fun cpu' => cpu'.rip = last ∧ cpu'.Stacked process activation
      (cleared.foldl (fun slots i => slots.setIfInBounds i 0) slots) out err stack := by
  induction cleared generalizing cpu slots with
  | nil => exact .now ⟨hstands, h⟩
  | cons i cleared ih =>
      obtain ⟨next, hhas, hrest⟩ := hstands
      obtain ⟨memory, hmoves, hstored⟩ := h.store (hcleared i List.mem_cons_self) hrax hhas
      refine .head hmoves (ih ?_ hrest hrax hstored)
      intro j hj
      rw [Array.size_setIfInBounds]
      exact hcleared j (List.mem_cons_of_mem _ hj)

theorem foldl_clear (slots : Array Word) (cleared : List Nat) (i : Nat) :
    (cleared.foldl (fun slots i => slots.setIfInBounds i 0) slots)[i]? =
      if i ∈ cleared ∧ i < slots.size then some 0 else slots[i]? := by
  induction cleared generalizing slots with
  | nil => simp
  | cons j cleared ih =>
      rw [List.foldl_cons, ih, Array.size_setIfInBounds, Array.getElem?_setIfInBounds]
      by_cases hi : i = j
      · subst hi
        by_cases hlt : i < slots.size
        · simp [hlt]
        · simp [hlt]
      · simp [hi, Ne.symm hi]

theorem foldl_clear_range (slots : Array Word) :
    (List.range slots.size).foldl (fun slots i => slots.setIfInBounds i 0) slots =
      Array.replicate slots.size 0 := by
  apply Array.ext_getElem?
  intro i
  rw [foldl_clear, Array.getElem?_replicate]
  by_cases hi : i < slots.size
  · simp [hi]
  · simp [hi]

/-- Making room for variables and clearing them. -/
theorem leads_reserve {n size : Nat} (hn : n ≤ size / 8) (hsize : 8 * (size / 8) = size)
    (hlimit : size ≤ Frame.limit)
    (hstands : process.Stands (Code.script ([.reserve size, .clear .rax] ++
      (List.range n).map fun i => .store (8 * (i + 1)) .rax)) cpu.rip last)
    {saved back : BitVec 64} (hholds : cpu.Holds process [saved, back])
    (hrbp : cpu.register .rbp = cpu.register .rsp)
    (hroom : process.low + size + 16 ≤ process.high) :
    process.Leads cpu fun cpu' => cpu'.rip = last ∧ ∃ pad, 8 * (pad.length + n) = size ∧
      cpu'.Stacked process ⟨pad, saved, back⟩ (Array.replicate n 0) cpu.out cpu.err [] := by
  obtain ⟨n₁, h₁, n₂, h₂, hclear⟩ := hstands
  let lowered := (cpu.goto n₁).result .rsp (cpu.register .rsp - .ofNat 64 size)
    ((cpu.register .rsp).ssubOverflow (.ofNat 64 size))
  let cleared := (lowered.goto n₂).result .rax 0 false
  have htop : (cpu.register .rsp).toNat + 16 = process.high := hholds.high
  have hrsp : (cleared.register .rsp).toNat + 8 * (size / 8) = (cpu.register .rsp).toNat := by
    have hsmall : (BitVec.ofNat 64 size).toNat = size := by
      rw [BitVec.toNat_ofNat, Nat.mod_eq_of_lt]
      exact Nat.lt_of_le_of_lt hlimit (by decide)
    show (cpu.register .rsp - .ofNat 64 size).toNat + _ = _
    rw [BitVec.toNat_sub_of_le, hsmall]
    · omega
    · rw [BitVec.le_def, hsmall]
      omega
  obtain ⟨ws, hlength, hframe⟩ := hholds.lower hrsp (by omega) rfl
  obtain ⟨pad, slots, hpad, rfl, hwords⟩ := Activation.exists_words (hlength ▸ hn) saved back
  have hstacked : cleared.Stacked process ⟨pad, saved, back⟩ slots cpu.out cpu.err [] := by
    refine ⟨?_, ?_, rfl, rfl⟩
    · show (cpu.register .rbp).toNat + 16 = process.high
      rw [hrbp]
      exact htop
    · rw [hwords]
      exact hframe
  have hcleared : ∀ i ∈ List.range slots.size, i < slots.size := fun i => List.mem_range.mp
  have hlower := h₁.moves (show (cpu.goto n₁).perform process _ = .next lowered from rfl)
  have hzero := h₂.moves (show (lowered.goto n₂).perform process _ = .next cleared from rfl)
  refine .head hlower (.head hzero (.mono (leads_clear hcleared hclear rfl hstacked) ?_))
  rintro cpu' ⟨hrip, hdone⟩
  rw [foldl_clear_range] at hdone
  exact ⟨hrip, pad, by omega, hdone⟩

theorem leads_prologue {n size : Nat} {code : Code} (hcode : Frame.prologue n = .ok code)
    (hsize : Frame.size n = .ok size) (hstands : process.Stands (Code.script code) cpu.rip last)
    {back : BitVec 64} (hholds : cpu.Holds process [back])
    (hroom : process.low + size + 16 ≤ process.high) :
    process.Leads cpu fun cpu' => cpu'.rip = last ∧ ∃ pad, 8 * (pad.length + n) = size ∧
      cpu'.Stacked process ⟨pad, cpu.register .rbp, back⟩ (Array.replicate n 0) cpu.out cpu.err [] := by
  obtain ⟨size', hsize', rfl⟩ := Frame.prologue_eq_ok hcode
  rw [hsize] at hsize'
  cases hsize'
  rw [Frame.setup] at hstands
  obtain ⟨hvalue, hlimit⟩ := Frame.size_eq_ok hsize
  obtain ⟨n₁, h₁, n₂, h₂, hrest⟩ := hstands
  have hholds' : (cpu.goto n₁).Holds process [back] := hholds.of_eq rfl rfl
  obtain ⟨hpush, hpushed⟩ := hholds'.push (by rw [List.length_singleton]; omega) (cpu.register .rbp)
  refine .step h₁ hpush (.step h₂ rfl ?_)
  split at hrest
  · next hzero =>
      have hn : n = 0 := by omega
      subst hn
      exact .now ⟨hrest, [], hzero.symm, hpushed.high, hpushed.of_eq rfl rfl, rfl, rfl⟩
  · exact leads_reserve (by omega) (by omega) hlimit hrest (hpushed.of_eq rfl rfl) rfl hroom

end

end GotoLang.X64
