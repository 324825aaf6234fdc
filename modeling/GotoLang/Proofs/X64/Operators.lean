import GotoLang.Proofs.Kinds
import GotoLang.Proofs.X64.Runs

/-!
# Operators in machine code

The code of an operator leaves in `rax` the word that the operator has for its operands, and nothing
else changes that matters: neither the stack nor the frame pointer nor what was written.
-/
namespace GotoLang.X64

/-- What operators leave alone. -/
structure Cpu.Keeps (cpu cpu' : Cpu) : Prop where
  rsp : cpu'.register .rsp = cpu.register .rsp
  rbp : cpu'.register .rbp = cpu.register .rbp
  memory : cpu'.memory = cpu.memory
  out : cpu'.out = cpu.out
  err : cpu'.err = cpu.err

theorem toBitVec_toInt64 (b : Bool) : b.toInt64.toBitVec = if b then 1 else 0 := by
  cases b <;> rfl

/-- A difference is negative, or it overflowed, exactly if the first word is less. -/
theorem msb_sub_bne_ssubOverflow (a b : BitVec 64) :
    ((a - b).msb != a.ssubOverflow b) = a.slt b := by
  have ha := @BitVec.toInt_lt 64 a
  have ha' := @BitVec.le_toInt 64 a
  have hb := @BitVec.toInt_lt 64 b
  have hb' := @BitVec.le_toInt 64 b
  have hsub : (a - b).toInt = (a.toInt - b.toInt).bmod 18446744073709551616 := BitVec.toInt_sub
  rw [Int.bmod_def] at hsub
  rw [BitVec.msb_eq_toInt, BitVec.ssubOverflow, BitVec.slt]
  generalize (a - b).toInt = d at hsub
  by_cases hover : 9223372036854775808 ≤ a.toInt - b.toInt
  · have hd : d < 0 := by omega
    have hlt : ¬ a.toInt < b.toInt := by omega
    simp [hover, hd, hlt]
  · by_cases hunder : a.toInt - b.toInt < -9223372036854775808
    · have hd : ¬ d < 0 := by omega
      have hlt : a.toInt < b.toInt := by omega
      simp [hunder, hd, hlt]
    · have hd : d < 0 ↔ a.toInt < b.toInt := by omega
      simp [hover, hunder, hd]

theorem Flags.holds_eq {flags : Flags} {a b : Word} (hzero : flags.zero = (a == b))
    (hless : (flags.sign != flags.overflow) = decide (a < b)) (cond : Cond) :
    flags.holds cond = cond.holds a b := by
  have hle : ((a == b) || decide (a < b)) = decide (a ≤ b) := by
    rw [Bool.eq_iff_iff, Bool.or_eq_true, beq_iff_eq, decide_eq_true_eq, decide_eq_true_eq,
      Int64.le_iff_lt_or_eq, or_comm]
  cases cond with
  | eq => exact hzero
  | ne => rw [Flags.holds, hzero, Cond.holds, bne]
  | lt => exact hless
  | le => rw [Flags.holds, hzero, hless, hle, Cond.holds]
  | gt =>
      rw [Flags.holds, hzero, hless, hle, Cond.holds, ← decide_not]
      simp only [Int64.not_le]
  | ge =>
      have hsame : (flags.sign == flags.overflow) = !(flags.sign != flags.overflow) := by
        rw [bne, Bool.not_not]
      rw [Flags.holds, hsame, hless, Cond.holds, ← decide_not]
      simp only [Int64.not_lt]

/-- The flags of a difference tell how two words compare. -/
theorem Flags.holds_difference (a b : Word) (cond : Cond) :
    (Flags.ofResult (a.toBitVec - b.toBitVec) (a.toBitVec.ssubOverflow b.toBitVec)).holds cond =
      cond.holds a b := by
  refine Flags.holds_eq ?_ ?_ cond
  · show (a.toBitVec - b.toBitVec == 0) = (a == b)
    rw [Bool.eq_iff_iff, beq_iff_eq, beq_iff_eq, BitVec.sub_eq_iff_eq_add]
    simp [Int64.toBitVec_inj]
  · show ((a.toBitVec - b.toBitVec).msb != a.toBitVec.ssubOverflow b.toBitVec) = decide (a < b)
    rw [msb_sub_bne_ssubOverflow, Bool.eq_iff_iff, decide_eq_true_eq, Int64.lt_iff_toBitVec_slt]

/-- What the flags of a word tell about it. -/
def Test.holds (value : Word) : Test → Bool
  | zero => value == 0
  | notZero => value != 0
  | notNegative => 0 ≤ value.toInt

theorem Flags.passes_word (a : Word) (overflow : Bool) (test : Test) :
    (Flags.ofResult a.toBitVec overflow).passes test = test.holds a := by
  have hzero : (a.toBitVec == 0) = (a == 0) := by
    rw [Bool.eq_iff_iff, beq_iff_eq, beq_iff_eq, ← Int64.toBitVec_inj]
    rfl
  cases test with
  | zero => exact hzero
  | notZero =>
      show (!(a.toBitVec == 0)) = !(a == 0)
      rw [hzero]
  | notNegative =>
      show (!a.toBitVec.msb) = decide (0 ≤ a.toBitVec.toInt)
      rw [BitVec.msb_eq_toInt, ← decide_not]
      simp only [Int.not_lt]

theorem Flags.passes_test {x : BitVec 64} {a : Word} (hx : x = a.toBitVec) (test : Test) :
    (Flags.ofResult (x &&& x) false).passes test = test.holds a := by
  rw [hx, BitVec.and_self, passes_word]

/-- The byte that a comparison sets, widened. -/
theorem setWidth_setLowByte (x : BitVec 64) (low : BitVec 8) :
    ((x.extractLsb' 8 56 ++ low).setWidth 8).setWidth 64 = low.setWidth 64 := by
  have hlow : (x.extractLsb' 8 56 ++ low).setWidth 8 = low := by
    apply BitVec.eq_of_getLsbD_eq
    intro i hi
    rw [BitVec.getLsbD_setWidth, BitVec.getLsbD_append]
    simp [hi]
  rw [hlow]

open CodeGeneration
variable {process : Process} {cpu : Cpu} {last : BitVec 64}

/-- The machine is behind some code, with a word in `rax`. -/
structure Cpu.Yields (cpu : Cpu) (last : BitVec 64) (value : Word) (cpu' : Cpu) : Prop
    extends cpu.Keeps cpu' where
  rip : cpu'.rip = last
  rax : cpu'.register .rax = value.toBitVec

theorem advances_unary {op : UnaryOp} {value : Word}
    (hstands : process.Stands (Code.script (unary op)) cpu.rip last)
    (hvalue : cpu.register .rax = value.toBitVec) (htruth : op = .not → Ty.Has .bool value) :
    process.Advances cpu (cpu.Yields last (op.eval value)) := by
  cases op with
  | neg =>
      obtain ⟨next, hhas, rfl⟩ := hstands
      refine .head (hhas.moves rfl) (.now ⟨⟨rfl, rfl, rfl, rfl, rfl⟩, rfl, ?_⟩)
      show -cpu.register .rax = (-value).toBitVec
      rw [hvalue, Int64.toBitVec_neg]
  | not =>
      obtain ⟨next, hhas, rfl⟩ := hstands
      refine .head (hhas.moves rfl) (.now ⟨⟨rfl, rfl, rfl, rfl, rfl⟩, rfl, ?_⟩)
      show cpu.register .rax ^^^ 1 = (value == 0).toInt64.toBitVec
      rw [hvalue]
      rcases htruth rfl with rfl | rfl <;> rfl

theorem advances_combine {op : BinaryOp} {lhs rhs value : Word}
    (hstands : process.Stands (Code.script (combine op)) cpu.rip last) (hop : divides? op = none)
    (hlhs : cpu.register .rcx = lhs.toBitVec) (hrhs : cpu.register .rax = rhs.toBitVec)
    (hvalue : op.eval? lhs rhs = some value)
    (htruth : ∀ logic, op = .logic logic → Ty.Has .bool lhs ∧ Ty.Has .bool rhs) :
    process.Advances cpu (cpu.Yields last value) := by
  cases op with
  | arith op =>
      cases op with
      | add =>
          obtain ⟨next, hhas, rfl⟩ := hstands
          cases hvalue
          refine .head (hhas.moves rfl) (.now ⟨⟨rfl, rfl, rfl, rfl, rfl⟩, rfl, ?_⟩)
          show cpu.register .rax + cpu.register .rcx = (lhs + rhs).toBitVec
          rw [hlhs, hrhs, Int64.toBitVec_add, BitVec.add_comm]
      | sub =>
          obtain ⟨next, hhas, next', hhas', rfl⟩ := hstands
          cases hvalue
          refine .head (hhas.moves rfl) (.step hhas' rfl (.now ⟨⟨rfl, rfl, rfl, rfl, rfl⟩, rfl, ?_⟩))
          show cpu.register .rcx - cpu.register .rax = (lhs - rhs).toBitVec
          rw [hlhs, hrhs, Int64.toBitVec_sub]
      | mul =>
          obtain ⟨next, hhas, rfl⟩ := hstands
          cases hvalue
          refine .head (hhas.moves rfl) (.now ⟨⟨rfl, rfl, rfl, rfl, rfl⟩, rfl, ?_⟩)
          show cpu.register .rax * cpu.register .rcx = (lhs * rhs).toBitVec
          rw [hlhs, hrhs, Int64.toBitVec_mul, BitVec.mul_comm]
      | div => cases hop
      | rem => cases hop
  | cmp cond =>
      obtain ⟨n₁, h₁, n₂, h₂, n₃, h₃, rfl⟩ := hstands
      cases hvalue
      refine .head (h₁.moves rfl) (.step h₂ rfl (.step h₃ rfl (.now ⟨⟨rfl, rfl, rfl, rfl, rfl⟩, rfl, ?_⟩)))
      show BitVec.setWidth 64 (BitVec.setWidth 8 (_ ++ if Flags.holds (.ofResult
        (cpu.register .rcx - cpu.register .rax) ((cpu.register .rcx).ssubOverflow (cpu.register .rax)))
          cond then 1 else 0)) = (cond.holds lhs rhs).toInt64.toBitVec
      rw [setWidth_setLowByte, hlhs, hrhs, Flags.holds_difference, toBitVec_toInt64]
      cases cond.holds lhs rhs <;> rfl
  | logic op =>
      obtain ⟨hl, hr⟩ := htruth op rfl
      cases op with
      | and =>
          obtain ⟨next, hhas, rfl⟩ := hstands
          cases hvalue
          refine .head (hhas.moves rfl) (.now ⟨⟨rfl, rfl, rfl, rfl, rfl⟩, rfl, ?_⟩)
          show cpu.register .rax &&& cpu.register .rcx = (lhs != 0 && rhs != 0).toInt64.toBitVec
          rw [hlhs, hrhs]
          rcases hl with rfl | rfl <;> rcases hr with rfl | rfl <;> rfl
      | or =>
          obtain ⟨next, hhas, rfl⟩ := hstands
          cases hvalue
          refine .head (hhas.moves rfl) (.now ⟨⟨rfl, rfl, rfl, rfl, rfl⟩, rfl, ?_⟩)
          show cpu.register .rax ||| cpu.register .rcx = (lhs != 0 || rhs != 0).toInt64.toBitVec
          rw [hlhs, hrhs]
          rcases hl with rfl | rfl <;> rcases hr with rfl | rfl <;> rfl

end GotoLang.X64
