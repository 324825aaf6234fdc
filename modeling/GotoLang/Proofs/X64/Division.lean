import GotoLang.Proofs.Optimize.Fold
import GotoLang.Proofs.X64.Operators

/-!
# Division in machine code

The division instruction faults for a zero divisor and where the quotient has no room, which is the
smallest number divided by minus one. The code around it keeps both away: a zero divisor leaves for the
trap, and minus one is replaced by one after the dividend was negated. What is in `rax` at the end is what
constant folding and the stack machine have for the operator.
-/
namespace GotoLang

/-- What folding and the stack machine make of an operator and two words: a word, or nothing, which is a
trap for the machine. -/
structure BinaryOp.ComesTo (op : BinaryOp) (lhs rhs : Word) (result : Option Word) : Prop where
  folded : ∀ (targets : Array Bool) (ops : Array Op) (first : Nat), ops[first]? = some (.push lhs) →
    ops[first + 1]? = some (.push rhs) → ops[first + 2]? = some (.binary op) →
    Fold.isSealed targets first (first + 2) = true →
    Fold.at? targets ops first = result.map fun value =>
      Fold.collapse ops first (.push value) [first + 1, first + 2]
  performed : ∀ (machine : Machine) (rest : List Word), machine.stack = rhs :: lhs :: rest →
    machine.perform (.binary op) = result.elim { machine with stack := rest }.trap fun value =>
      .running { machine with stack := value :: rest }

theorem BinaryOp.comesTo_eval? (op : BinaryOp) (lhs rhs : Word) : op.ComesTo lhs rhs (op.eval? lhs rhs) := by
  refine ⟨fun _ _ _ hlhs hrhs hop hsealed => Fold.at?_binary hlhs hrhs hop hsealed, ?_⟩
  intro machine rest hstack
  rw [Machine.perform, hstack]
  dsimp only
  cases op.eval? lhs rhs <;> rfl

namespace X64

open CodeGeneration
variable {process : Process} {cpu : Cpu} {last : BitVec 64}

theorem ofInt_tdiv (a b : BitVec 64) : BitVec.ofInt 64 (a.toInt.tdiv b.toInt) = a.sdiv b := by
  apply BitVec.eq_of_toInt_eq
  rw [BitVec.toInt_ofInt, BitVec.toInt_sdiv]

theorem ofInt_tmod (a b : BitVec 64) : BitVec.ofInt 64 (a.toInt.tmod b.toInt) = a.srem b := by
  rw [← BitVec.toInt_srem, BitVec.ofInt_toInt]

/-- Only the smallest number divided by minus one has no room. -/
theorem tdiv_room (a b : BitVec 64) (hb : b.toInt ≠ -1) :
    -9223372036854775808 ≤ a.toInt.tdiv b.toInt ∧ a.toInt.tdiv b.toInt < 9223372036854775808 := by
  have ha : a.toInt < 9223372036854775808 := @BitVec.toInt_lt 64 a
  have ha' : -9223372036854775808 ≤ a.toInt := @BitVec.le_toInt 64 a
  have hquotient : (a.toInt.tdiv b.toInt).natAbs = a.toInt.natAbs / b.toInt.natAbs :=
    Int.natAbs_tdiv ..
  by_cases hone : b.toInt = 1
  · rw [hone, Int.tdiv_one]
    omega
  · by_cases hzero : b.toInt = 0
    · rw [hzero, Int.tdiv_zero]
      omega
    · have hhalf : a.toInt.natAbs / b.toInt.natAbs ≤ a.toInt.natAbs / 2 :=
        Nat.div_le_div_left (by omega) (by omega)
      omega

theorem Cpu.divideSigned_eq {cpu : Cpu} {lhs rhs : BitVec 64}
    (hrdx : cpu.register .rdx = if lhs.msb then -1 else 0) (hrax : cpu.register .rax = lhs)
    (hzero : rhs.toInt ≠ 0) (hminus : rhs.toInt ≠ -1) :
    cpu.divideSigned rhs.toInt = .next (cpu.divided (lhs.sdiv rhs) (lhs.srem rhs)) := by
  have hdividend : (cpu.register .rdx).toInt * 18446744073709551616 + (cpu.register .rax).toNat =
      lhs.toInt := by
    rw [hrdx, hrax, BitVec.toInt_eq_msb_cond lhs]
    cases lhs.msb with
    | false => exact Int.zero_add _
    | true =>
        have hfill : (-1 : BitVec 64).toInt = -1 := by decide
        rw [if_pos rfl, if_pos rfl, hfill]
        omega
  obtain ⟨hlow, hhigh⟩ := tdiv_room lhs rhs hminus
  simp only [Cpu.divideSigned, hdividend]
  rw [if_neg (by omega), ofInt_tdiv, ofInt_tmod]

/-- What a division gives for operands that do not trap. -/
def quotient (remainder : Bool) (lhs rhs : Word) : Word :=
  if remainder then lhs % rhs else lhs / rhs

theorem eval?_of_divides? {op : BinaryOp} {remainder : Bool} (hop : divides? op = some remainder)
    (lhs rhs : Word) :
    op.eval? lhs rhs = if rhs = 0 then none else some (quotient remainder lhs rhs) := by
  rcases op with (_ | _ | _ | _ | _) | _ | _ <;> cases hop <;> rfl

theorem toBitVec_quotient (remainder : Bool) (lhs rhs : Word) : (quotient remainder lhs rhs).toBitVec =
    if remainder then lhs.toBitVec.srem rhs.toBitVec else lhs.toBitVec.sdiv rhs.toBitVec := by
  cases remainder
  · exact Int64.toBitVec_div
  · exact Int64.toBitVec_mod

/-- Minus one as a divisor can be replaced by one if the dividend is negated. -/
theorem quotient_minus_one (remainder : Bool) (lhs : Word) :
    (quotient remainder lhs (-1)).toBitVec =
      if remainder then (-lhs.toBitVec).srem 1 else (-lhs.toBitVec).sdiv 1 := by
  have hminus : (-1 : Int64).toBitVec.toInt = -1 := by decide
  have hone : (1 : BitVec 64).toInt = 1 := by decide
  rw [toBitVec_quotient]
  cases remainder
  · apply BitVec.eq_of_toInt_eq
    show (lhs.toBitVec.sdiv (-1 : Int64).toBitVec).toInt = ((-lhs.toBitVec).sdiv 1).toInt
    rw [BitVec.toInt_sdiv, BitVec.toInt_sdiv, hminus, hone, Int.tdiv_one, BitVec.toInt_neg,
      Int.bmod_bmod, Int.tdiv_neg, Int.tdiv_one]
  · apply BitVec.eq_of_toInt_eq
    show (lhs.toBitVec.srem (-1 : Int64).toBitVec).toInt = ((-lhs.toBitVec).srem 1).toInt
    rw [BitVec.toInt_srem, BitVec.toInt_srem, hminus, hone, Int.tmod_one, Int.tmod_neg, Int.tmod_one]

/-- The quotient as a number: division toward zero, where only the quotient itself may wrap around. -/
theorem toInt_quotient (remainder : Bool) (lhs rhs : Word) : (quotient remainder lhs rhs).toInt =
    if remainder then lhs.toInt.tmod rhs.toInt
    else (lhs.toInt.tdiv rhs.toInt).bmod 18446744073709551616 := by
  cases remainder
  · exact Int64.toInt_div lhs rhs
  · exact Int64.toInt_mod lhs rhs

section
variable {addr : Nat} {remainder : Bool} {lhs rhs : Word}

/-- An event of a division, where a jump only goes to the label inside. -/
structure Event.Divides (process : Process) (addr : Nat) (remainder : Bool) (event : Event) : Prop where
  part : event.PartOf process (division addr remainder)
  jump : ∀ target, event.jump? = some target → target = process.label (.divide addr)

theorem Event.Divides.of_mem {instr : Instr CodeLabel} (h : .emit instr ∈ division addr remainder)
    (hjump : jump? ⟨cpu, instr.map process.label⟩ = none) :
    Divides process addr remainder ⟨cpu, instr.map process.label⟩ := by
  refine ⟨partOf_of_mem h, fun target htarget => ?_⟩
  rw [hjump] at htarget
  cases htarget

theorem Event.Divides.of_jump {test : Test} {mark : CodeLabel}
    (h : .emit (.jumpIf test mark) ∈ division addr remainder)
    (hjump : mark = .divide addr ∨ jump? ⟨cpu, .jumpIf test (process.label mark)⟩ = none) :
    Divides process addr remainder ⟨cpu, .jumpIf test (process.label mark)⟩ := by
  refine ⟨⟨_, h, rfl⟩, fun target htarget => ?_⟩
  rcases hjump with rfl | hjump
  · simp only [jump?] at htarget
    split at htarget <;> cases htarget
    rfl
  · rw [hjump] at htarget
    cases htarget

theorem leads_quotient {lhs rhs : BitVec 64}
    (hstands : process.Stands (Code.script ([.cqo, .idiv .rcx] ++ onlyIf remainder [.mov .rax .rdx]))
      cpu.rip last)
    (hlhs : cpu.register .rax = lhs) (hrhs : cpu.register .rcx = rhs) (hzero : rhs.toInt ≠ 0)
    (hminus : rhs.toInt ≠ -1) :
    process.LeadsBy (Event.Divides process addr remainder) cpu fun cpu' => cpu.Keeps cpu' ∧
      cpu'.rip = last ∧ cpu'.register .rax = if remainder then lhs.srem rhs else lhs.sdiv rhs := by
  subst hlhs hrhs
  obtain ⟨n₁, h₁, n₂, h₂, hrest⟩ := hstands
  refine .step h₁ (.of_mem (by simp [division, Code.script]) rfl) rfl ?_
  refine .step h₂ (.of_mem (by simp [division, Code.script]) rfl)
    (Cpu.divideSigned_eq rfl rfl hzero hminus) ?_
  cases remainder with
  | false =>
      cases hrest
      exact .now ⟨⟨rfl, rfl, rfl, rfl, rfl⟩, rfl, rfl⟩
  | true =>
      obtain ⟨n₃, h₃, rfl⟩ := hrest
      refine .step h₃ (.of_mem (by simp [division, Code.script, onlyIf]) rfl) rfl ?_
      exact .now ⟨⟨rfl, rfl, rfl, rfl, rfl⟩, rfl, rfl⟩

theorem run_trap (hstands : process.Stands (division addr remainder) cpu.rip last)
    (hrhs : cpu.register .rcx = rhs.toBitVec) (hzero : rhs = 0) :
    ∃ events final, process.Run cpu events final ∧
      (∀ event ∈ events, event.PartOf process (division addr remainder)) ∧
      (∃ event ∈ events, event.jump? = some (process.label .trap)) ∧ cpu.Keeps final ∧
      final.rip = process.label .trap := by
  obtain ⟨n₁, h₁, n₂, h₂, -⟩ := hstands
  rw [hzero] at hrhs
  have hpasses := Flags.passes_test hrhs .zero
  refine ⟨_, _, .step h₁.fetch rfl (.step h₂.fetch (Cpu.perform_jumpIf_taken rfl hpasses) (.done _)), ?_,
    ?_, ⟨rfl, rfl, rfl, rfl, rfl⟩, rfl⟩
  · rw [List.forall_mem_cons, List.forall_mem_singleton]
    exact ⟨Event.partOf_of_mem (by simp [division, Code.script]),
      Event.partOf_of_mem (by simp [division, Code.script])⟩
  · exact ⟨_, List.mem_cons_of_mem _ List.mem_cons_self, Event.jump?_of_taken rfl hpasses⟩

theorem leads_division (hstands : process.Stands (division addr remainder) cpu.rip last)
    (hlhs : cpu.register .rax = lhs.toBitVec) (hrhs : cpu.register .rcx = rhs.toBitVec)
    (hzero : rhs ≠ 0) :
    process.LeadsBy (Event.Divides process addr remainder) cpu
      (cpu.Yields last (quotient remainder lhs rhs)) := by
  obtain ⟨n₁, h₁, n₂, h₂, n₃, h₃, n₄, h₄, n₅, h₅, n₆, h₆, hlabel, hrest⟩ := hstands
  have hnonzero : Test.holds rhs .zero = false := by simpa [Test.holds] using hzero
  have htest := (Flags.passes_test hrhs .zero).trans hnonzero
  refine .step h₁ (.of_mem (by simp [division, Code.script]) rfl) rfl ?_
  refine .passed h₂ (.of_jump (by simp [division, Code.script])
    (.inr (Event.jump?_of_passed rfl htest))) rfl htest ?_
  refine .step h₃ (.of_mem (by simp [division, Code.script]) rfl) rfl ?_
  by_cases hminus : rhs = -1
  · subst hminus
    have hcompare : (Flags.ofResult (cpu.register .rcx - (-1 : Int8).toBitVec.signExtend 64)
        ((cpu.register .rcx).ssubOverflow ((-1 : Int8).toBitVec.signExtend 64))).passes .notZero =
        false := by
      rw [hrhs]
      decide
    refine .passed h₄ (.of_jump (by simp [division, Code.script]) (.inl rfl)) rfl hcompare ?_
    refine .step h₅ (.of_mem (by simp [division, Code.script]) rfl) rfl ?_
    refine .step h₆ (.of_mem (by simp [division, Code.script]) rfl) rfl ?_
    have hnegated : -cpu.register .rax = -lhs.toBitVec := congrArg _ hlhs
    have hzero' : (1 : BitVec 64).toInt ≠ 0 := by decide
    have hminus' : (1 : BitVec 64).toInt ≠ -1 := by decide
    refine .mono (leads_quotient hrest hnegated rfl hzero' hminus') ?_
    intro cpu' h
    exact ⟨⟨h.1.rsp, h.1.rbp, h.1.memory, h.1.out, h.1.err⟩, h.2.1,
      h.2.2.trans (quotient_minus_one remainder lhs).symm⟩
  · have hcompare : (Flags.ofResult (cpu.register .rcx - (-1 : Int8).toBitVec.signExtend 64)
        ((cpu.register .rcx).ssubOverflow ((-1 : Int8).toBitVec.signExtend 64))).passes .notZero =
        true := by
      rw [hrhs]
      exact (Flags.holds_difference rhs (-1) .ne).trans (bne_iff_ne.mpr hminus)
    refine .taken h₄ (.of_jump (by simp [division, Code.script]) (.inl rfl)) rfl hcompare ?_
    have hzero' : rhs.toBitVec.toInt ≠ 0 := fun h => hzero (Int64.toInt_inj.mp h)
    have hminus' : rhs.toBitVec.toInt ≠ -1 := fun h => hminus (Int64.toInt_inj.mp h)
    have hrip : process.label (.divide addr) = n₆ := hlabel
    rw [← hrip] at hrest
    refine .mono (leads_quotient hrest hlhs hrhs hzero' hminus') ?_
    intro cpu' h
    exact ⟨⟨h.1.rsp, h.1.rbp, h.1.memory, h.1.out, h.1.err⟩, h.2.1,
      h.2.2.trans (toBitVec_quotient remainder lhs rhs).symm⟩

/-- The trap is not inside of a division. -/
theorem label_trap_ne {first : BitVec 64} (hstands : process.Stands (division addr remainder) first last)
    (htrap : process.Contains Routines.trap) :
    process.label .trap ≠ process.label (.divide addr) := by
  obtain ⟨_, _, htrapLabel, _, hfirst, -⟩ := htrap
  obtain ⟨_, -, _, -, _, -, _, -, _, -, n₆, -, hlabel, _, hquotient, -⟩ := hstands
  intro hsame
  have hrip : process.label (.divide addr) = n₆ := hlabel
  rw [← htrapLabel, hsame] at hfirst
  rw [← hrip] at hquotient
  cases hfirst.fetch.symm.trans hquotient.fetch

/-- The code of a division carries out its own instructions only, all of them without a fault, and leaves
for the trap exactly if the divisor is zero. Otherwise control gets behind it, with the quotient or the
remainder in `rax` that folding and the stack machine have, too: division toward zero, modulo 2^64. -/
theorem division_wraps {op : BinaryOp} (hop : divides? op = some remainder)
    (hstands : process.Stands (division addr remainder) cpu.rip last)
    (htrap : process.Contains Routines.trap) (hlhs : cpu.register .rax = lhs.toBitVec)
    (hrhs : cpu.register .rcx = rhs.toBitVec) :
    ∃ events final, process.Run cpu events final ∧
      (∀ event ∈ events, event.PartOf process (division addr remainder)) ∧ cpu.Keeps final ∧
      ((∃ event ∈ events, event.jump? = some (process.label .trap)) ↔ rhs = 0) ∧
      (rhs = 0 → final.rip = process.label .trap ∧ op.ComesTo lhs rhs none) ∧
      (rhs ≠ 0 → ∃ value : Word, final.rip = last ∧ final.register .rax = value.toBitVec ∧
        value.toInt = (if remainder then lhs.toInt.tmod rhs.toInt
          else (lhs.toInt.tdiv rhs.toInt).bmod 18446744073709551616) ∧
        op.ComesTo lhs rhs (some value)) := by
  have hcomes := op.comesTo_eval? lhs rhs
  rw [eval?_of_divides? hop] at hcomes
  by_cases hzero : rhs = 0
  · obtain ⟨events, final, hrun, hpart, hjump, hkeeps, hrip⟩ := run_trap hstands hrhs hzero
    rw [if_pos hzero] at hcomes
    exact ⟨events, final, hrun, hpart, hkeeps, ⟨fun _ => hzero, fun _ => hjump⟩, fun _ => ⟨hrip, hcomes⟩,
      fun hne => absurd hzero hne⟩
  · obtain ⟨events, final, hrun, hdivides, hyields⟩ := leads_division hstands hlhs hrhs hzero
    rw [if_neg hzero] at hcomes
    refine ⟨events, final, hrun, fun event hevent => (hdivides event hevent).part, hyields.toKeeps, ?_,
      fun h => absurd h hzero, fun _ => ?_⟩
    · refine ⟨fun ⟨event, hevent, hjump⟩ => ?_, fun h => absurd h hzero⟩
      exact absurd ((hdivides event hevent).jump _ hjump) (label_trap_ne hstands htrap)
    · exact ⟨_, hyields.rip, hyields.rax, toInt_quotient remainder lhs rhs, hcomes⟩

/-- The smallest number divided by minus one is itself, in code that is somewhere in memory. -/
theorem division_wraps_smallest : ∃ (process : Process) (cpu : Cpu) (last : BitVec 64),
    process.Stands (division 0 false) cpu.rip last ∧ process.Contains Routines.trap ∧
    cpu.register .rax = (-9223372036854775808 : Word).toBitVec ∧
    cpu.register .rcx = (-1 : Word).toBitVec ∧
    process.Leads cpu fun final => final.rip = last ∧
      final.register .rax = (-9223372036854775808 : Word).toBitVec := by
  obtain ⟨process, -, -, -, hcontains⟩ := Process.exists_contains
    [.divide 0, .trap, .leave, .trapText]
    (division 0 false ++ Routines.trap ++ (.place .leave :: Code.script [.ret]) ++
      Routines.datum .trapText Machine.trapMessage) (by decide +kernel) (by decide +kernel)
  obtain ⟨hcontains, -⟩ := hcontains.append
  obtain ⟨hcontains, -⟩ := hcontains.append
  obtain ⟨⟨first, last, hstands⟩, htrap⟩ := hcontains.append
  let cpu : Cpu := ⟨first, fun r => if r = .rcx then (-1 : Word).toBitVec
    else (-9223372036854775808 : Word).toBitVec, none, fun _ => 0, #[], #[]⟩
  have hop : divides? (.arith .div) = some false := rfl
  have hstands : process.Stands (division 0 false) cpu.rip last := hstands
  have hlhs : cpu.register .rax = (-9223372036854775808 : Word).toBitVec := rfl
  have hrhs : cpu.register .rcx = (-1 : Word).toBitVec := rfl
  obtain ⟨events, final, hrun, -, -, -, -, hvalue⟩ := division_wraps hop hstands htrap hlhs hrhs
  obtain ⟨value, hrip, hrax, htoInt, -⟩ := hvalue (by decide)
  refine ⟨process, cpu, last, hstands, htrap, hlhs, hrhs, final, hrun.reaches, hrip, ?_⟩
  have hvalue : value = -9223372036854775808 := Int64.toInt_inj.mp (htoInt.trans (by decide))
  rw [hrax, hvalue]

end

end X64

end GotoLang
