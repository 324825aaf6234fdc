import GotoLang.Proofs.X64.Activation
import GotoLang.Proofs.X64.Division

/-!
# The code of single operations

What the code of an operation does to the evaluation stack, the variables and the output, in both modes.
In the plain mode the evaluation stack is on the machine stack. In the cached mode its top is in `rax`:
an operation that puts a value on top first spills the one that was there, and one that takes the top
away refills `rax` if anything is left.
-/
namespace GotoLang.X64

/-- The part of the evaluation stack that is in memory. -/
def spilled (stackBased : Bool) (stack : List Word) : List Word :=
  if stackBased then stack else stack.tail

/-- The processor has this evaluation stack and these variables, and has written this. -/
structure Cpu.Carries (process : Process) (stackBased : Bool) (activation : Activation)
    (slots : Array Word) (out err : Bytes) (stack : List Word) (cpu : Cpu) : Prop where
  stacked : cpu.Stacked process activation slots out err (spilled stackBased stack)
  top : stackBased = false → ∀ value ∈ stack.head?, cpu.register .rax = value.toBitVec

theorem Code.script_append (first second : Code) :
    Code.script (first ++ second) = Code.script first ++ Code.script second :=
  List.map_append

open CodeGeneration
variable {process : Process} {stackBased : Bool} {activation : Activation} {slots : Array Word}
  {out err : Bytes} {stack rest : List Word} {value : Word} {cpu : Cpu} {last : BitVec 64}

theorem Cpu.Stacked.Room.mono {count count' : Nat}
    (h : Cpu.Stacked.Room process activation slots stack count) (hlength : rest.length ≤ stack.length)
    (hcount : count' ≤ count) : Cpu.Stacked.Room process activation slots rest count' := by
  rw [Room] at h ⊢
  omega

theorem leads_spill (h : cpu.Carries process false activation slots out err stack)
    (hroom : Cpu.Stacked.Room process activation slots stack 8)
    (hstands : process.Stands (Code.script (onlyIf (0 < stack.length) [.push .rax])) cpu.rip last) :
    process.Leads cpu fun cpu' => cpu'.rip = last ∧
      cpu'.Stacked process activation slots out err stack := by
  cases stack with
  | nil => exact .now ⟨hstands, h.stacked⟩
  | cons value rest =>
      obtain ⟨next, hhas, rfl⟩ := hstands
      have hroom' : Cpu.Stacked.Room process activation slots rest 8 :=
        hroom.mono (by simp) (Nat.le_refl 8)
      obtain ⟨hmoves, hpushed⟩ := h.stacked.push hroom' hhas (h.top rfl value rfl)
      exact .head hmoves (.now ⟨rfl, hpushed⟩)

/-- The top is gone, and `rax` gets the value below if there is one. -/
theorem leads_refill (h : cpu.Stacked process activation slots out err rest)
    (hhigh : process.high < 18446744073709551616)
    (hstands : process.Stands (Code.script (onlyIf (1 < (value :: rest).length) [.pop .rax])) cpu.rip
      last) :
    process.Leads cpu fun cpu' => cpu'.rip = last ∧ cpu'.flags = cpu.flags ∧
      cpu'.Carries process false activation slots out err rest := by
  cases rest with
  | nil => exact .now ⟨hstands, rfl, h, fun _ value hvalue => by cases hvalue⟩
  | cons below rest =>
      obtain ⟨next, hhas, rfl⟩ := hstands
      obtain ⟨hmoves, hpopped⟩ := h.pop hhigh (by decide) (by decide) hhas
      refine .head hmoves (.now ⟨rfl, rfl, hpopped, fun _ value hvalue => ?_⟩)
      cases hvalue
      rfl

/-- The top in `rax` and the others in memory. -/
theorem leads_fetch (h : cpu.Carries process stackBased activation slots out err (value :: rest))
    (hhigh : process.high < 18446744073709551616)
    (hstands : process.Stands (Code.script (onlyIf stackBased [.pop .rax])) cpu.rip last) :
    process.Leads cpu fun cpu' => cpu'.rip = last ∧ cpu'.register .rax = value.toBitVec ∧
      cpu'.Stacked process activation slots out err rest := by
  cases stackBased with
  | false => exact .now ⟨hstands, h.top rfl value rfl, h.stacked⟩
  | true =>
      obtain ⟨next, hhas, rfl⟩ := hstands
      obtain ⟨hmoves, hpopped⟩ := h.stacked.pop hhigh (by decide) (by decide) hhas
      exact .head hmoves (.now ⟨rfl, rfl, hpopped⟩)

/-- The value in `rax` becomes the top. -/
theorem leads_result (h : cpu.Stacked process activation slots out err rest)
    (hrax : cpu.register .rax = value.toBitVec)
    (hroom : Cpu.Stacked.Room process activation slots rest 8)
    (hstands : process.Stands (Code.script (onlyIf stackBased [.push .rax])) cpu.rip last) :
    process.Leads cpu fun cpu' => cpu'.rip = last ∧
      cpu'.Carries process stackBased activation slots out err (value :: rest) := by
  cases stackBased with
  | false =>
      refine .now ⟨hstands, h, fun _ value hvalue => ?_⟩
      cases hvalue
      exact hrax
  | true =>
      obtain ⟨next, hhas, rfl⟩ := hstands
      obtain ⟨hmoves, hpushed⟩ := h.push hroom hhas hrax
      exact .head hmoves (.now ⟨rfl, hpushed, fun hmode => by cases hmode⟩)

/-- An instruction that loads a word into `rax`, whatever is on the stack. -/
def Loads (process : Process) (activation : Activation) (slots : Array Word) (out err : Bytes)
    (value : Word) (instr : Instr CodeLabel) : Prop :=
  ∀ (cpu : Cpu) (stack : List Word) (next : BitVec 64),
    cpu.Stacked process activation slots out err stack →
    process.Has cpu.rip (instr.map process.label) next →
    Moves (Cpu.step process) cpu ((cpu.goto next).set .rax value.toBitVec) ∧
      ((cpu.goto next).set .rax value.toBitVec).Stacked process activation slots out err stack

theorem loads_word (value : Word) :
    Loads process activation slots out err value (.movWord .rax value) := by
  intro cpu stack next h hhas
  exact ⟨hhas.moves rfl, h.of_keeps ⟨rfl, rfl, rfl, rfl, rfl⟩⟩

theorem loads_slot {i : Nat} (hvalue : slots[i]? = some value) :
    Loads process activation slots out err value (.load .rax (8 * (i + 1))) := by
  intro cpu stack next h hhas
  exact h.load hvalue (by decide) (by decide) hhas

theorem advances_value {instr : Instr CodeLabel}
    (hloads : Loads process activation slots out err value instr)
    (h : cpu.Carries process stackBased activation slots out err stack)
    (hroom : Cpu.Stacked.Room process activation slots stack 8)
    (hstands : process.Stands (Code.script (if stackBased then [instr, .push .rax]
      else onlyIf (0 < stack.length) [.push .rax] ++ [instr])) cpu.rip last) :
    process.Advances cpu fun cpu' => cpu'.rip = last ∧
      cpu'.Carries process stackBased activation slots out err (value :: stack) := by
  cases stackBased with
  | false =>
      rw [if_neg Bool.false_ne_true, Code.script_append] at hstands
      obtain ⟨middle, hspill, next, hhas, rfl⟩ := hstands.append
      refine (leads_spill h hroom hspill).advance ?_
      rintro cpu' ⟨hrip, hstacked⟩
      rw [← hrip] at hhas
      obtain ⟨hmoves, hloaded⟩ := hloads _ _ _ hstacked hhas
      refine .head hmoves (.now ⟨rfl, hloaded, fun _ value hvalue => ?_⟩)
      cases hvalue
      rfl
  | true =>
      obtain ⟨n₁, h₁, n₂, h₂, rfl⟩ := hstands
      obtain ⟨hload, hloaded⟩ := hloads _ _ _ h.stacked h₁
      obtain ⟨hpush, hpushed⟩ := hloaded.push hroom h₂ rfl
      exact .head hload (.head hpush (.now ⟨rfl, hpushed, fun hmode => by cases hmode⟩))

theorem advances_store {i : Nat} (hi : i < slots.size)
    (h : cpu.Carries process stackBased activation slots out err (value :: rest))
    (hhigh : process.high < 18446744073709551616)
    (hstands : process.Stands (Code.script (if stackBased then [.pop .rax, .store (8 * (i + 1)) .rax]
      else [.store (8 * (i + 1)) .rax] ++ onlyIf (1 < (value :: rest).length) [.pop .rax])) cpu.rip
        last) :
    process.Advances cpu fun cpu' => cpu'.rip = last ∧
      cpu'.Carries process stackBased activation (slots.setIfInBounds i value) out err rest := by
  cases stackBased with
  | false =>
      obtain ⟨next, hhas, hrefill⟩ := hstands
      obtain ⟨memory, hmoves, hstored⟩ := h.stacked.store hi (h.top rfl value rfl) hhas
      exact .head hmoves (.mono (leads_refill hstored hhigh hrefill) fun _ h => ⟨h.1, h.2.2⟩)
  | true =>
      obtain ⟨n₁, h₁, n₂, h₂, rfl⟩ := hstands
      obtain ⟨hpop, hpopped⟩ := h.stacked.pop hhigh (by decide) (by decide) h₁
      obtain ⟨memory, hstore, hstored⟩ := hpopped.store hi rfl h₂
      exact .head hpop (.head hstore (.now ⟨rfl, hstored, fun hmode => by cases hmode⟩))

theorem advances_unaryOp {op : UnaryOp} (htruth : op = .not → Ty.Has .bool value)
    (h : cpu.Carries process stackBased activation slots out err (value :: rest))
    (hhigh : process.high < 18446744073709551616)
    (hroom : Cpu.Stacked.Room process activation slots rest 8)
    (hstands : process.Stands (Code.script (onlyIf stackBased [.pop .rax] ++ unary op ++
      onlyIf stackBased [.push .rax])) cpu.rip last) :
    process.Advances cpu fun cpu' => cpu'.rip = last ∧
      cpu'.Carries process stackBased activation slots out err (op.eval value :: rest) := by
  rw [Code.script_append, Code.script_append] at hstands
  obtain ⟨middle, hfirst, hresult⟩ := hstands.append
  obtain ⟨operand, hfetch, hoperator⟩ := hfirst.append
  refine (leads_fetch h hhigh hfetch).advance ?_
  intro cpu₁ ⟨hrip₁, hrax₁, hstacked₁⟩
  rw [← hrip₁] at hoperator
  refine (advances_unary hoperator hrax₁ htruth).andThen ?_
  intro cpu₂ hyields
  rw [← hyields.rip] at hresult
  exact leads_result (hstacked₁.of_keeps hyields.toKeeps) hyields.rax hroom hresult

/-- Both operands in registers, the right one in `rax`. -/
theorem advances_operands {lhs rhs : Word}
    (h : cpu.Carries process stackBased activation slots out err (rhs :: lhs :: rest))
    (hhigh : process.high < 18446744073709551616)
    (hstands : process.Stands (Code.script (onlyIf stackBased [.pop .rax] ++ [.pop .rcx])) cpu.rip
      last) :
    process.Advances cpu fun cpu' => cpu'.rip = last ∧ cpu'.register .rcx = lhs.toBitVec ∧
      cpu'.register .rax = rhs.toBitVec ∧ cpu'.Stacked process activation slots out err rest := by
  rw [Code.script_append] at hstands
  obtain ⟨middle, hfetch, next, hhas, rfl⟩ := hstands.append
  refine (leads_fetch h hhigh hfetch).advance ?_
  intro cpu₁ ⟨hrip₁, hrax₁, hstacked₁⟩
  rw [← hrip₁] at hhas
  obtain ⟨hmoves, hpopped⟩ := hstacked₁.pop hhigh (by decide) (by decide) hhas
  exact .head hmoves (.now ⟨rfl, rfl, hrax₁, hpopped⟩)

theorem advances_binaryOp {op : BinaryOp} {lhs rhs : Word} (hop : divides? op = none)
    (hvalue : op.eval? lhs rhs = some value)
    (htruth : ∀ logic, op = .logic logic → Ty.Has .bool lhs ∧ Ty.Has .bool rhs)
    (h : cpu.Carries process stackBased activation slots out err (rhs :: lhs :: rest))
    (hhigh : process.high < 18446744073709551616)
    (hroom : Cpu.Stacked.Room process activation slots rest 8)
    (hstands : process.Stands (Code.script (onlyIf stackBased [.pop .rax] ++ [.pop .rcx] ++ combine op ++
      onlyIf stackBased [.push .rax])) cpu.rip last) :
    process.Advances cpu fun cpu' => cpu'.rip = last ∧
      cpu'.Carries process stackBased activation slots out err (value :: rest) := by
  rw [Code.script_append, Code.script_append] at hstands
  obtain ⟨middle, hfirst, hresult⟩ := hstands.append
  obtain ⟨operands, hfetch, hoperator⟩ := hfirst.append
  refine (advances_operands h hhigh hfetch).andThen ?_
  intro cpu₁ ⟨hrip₁, hrcx₁, hrax₁, hstacked₁⟩
  rw [← hrip₁] at hoperator
  refine (advances_combine hoperator hop hrcx₁ hrax₁ hvalue htruth).leads.andThen ?_
  intro cpu₂ hyields
  rw [← hyields.rip] at hresult
  exact leads_result (hstacked₁.of_keeps hyields.toKeeps) hyields.rax hroom hresult

/-- Both operands in registers, the left one in `rax`. -/
theorem advances_dividend {lhs rhs : Word}
    (h : cpu.Carries process stackBased activation slots out err (rhs :: lhs :: rest))
    (hhigh : process.high < 18446744073709551616)
    (hstands : process.Stands (Code.script (if stackBased then [.pop .rcx, .pop .rax]
      else [.mov .rcx .rax, .pop .rax])) cpu.rip last) :
    process.Advances cpu fun cpu' => cpu'.rip = last ∧ cpu'.register .rax = lhs.toBitVec ∧
      cpu'.register .rcx = rhs.toBitVec ∧ cpu'.Stacked process activation slots out err rest := by
  cases stackBased with
  | false =>
      obtain ⟨n₁, h₁, n₂, h₂, rfl⟩ := hstands
      have hmoved : Cpu.Stacked process activation slots out err (lhs :: rest)
          ((cpu.goto n₁).set .rcx (cpu.register .rax)) :=
        h.stacked.of_keeps ⟨rfl, rfl, rfl, rfl, rfl⟩
      obtain ⟨hpop, hpopped⟩ := hmoved.pop hhigh (by decide) (by decide) h₂
      exact .head (h₁.moves rfl) (.head hpop (.now ⟨rfl, rfl, h.top rfl rhs rfl, hpopped⟩))
  | true =>
      obtain ⟨n₁, h₁, n₂, h₂, rfl⟩ := hstands
      obtain ⟨hpop, hpopped⟩ := h.stacked.pop hhigh (by decide) (by decide) h₁
      obtain ⟨hpop', hpopped'⟩ := hpopped.pop hhigh (by decide) (by decide) h₂
      exact .head hpop (.head hpop' (.now ⟨rfl, rfl, rfl, hpopped'⟩))

section
variable {addr : Nat} {remainder : Bool} {lhs rhs : Word}

theorem advances_divisionOp (hzero : rhs ≠ 0)
    (h : cpu.Carries process stackBased activation slots out err (rhs :: lhs :: rest))
    (hhigh : process.high < 18446744073709551616)
    (hroom : Cpu.Stacked.Room process activation slots rest 8)
    (hstands : process.Stands (Code.script (if stackBased then [.pop .rcx, .pop .rax]
      else [.mov .rcx .rax, .pop .rax]) ++ division addr remainder ++
      Code.script (onlyIf stackBased [.push .rax])) cpu.rip last) :
    process.Advances cpu fun cpu' => cpu'.rip = last ∧ cpu'.Carries process stackBased activation slots
      out err (quotient remainder lhs rhs :: rest) := by
  obtain ⟨middle, hfirst, hresult⟩ := hstands.append
  obtain ⟨operands, hfetch, hdivision⟩ := hfirst.append
  refine (advances_dividend h hhigh hfetch).andThen ?_
  intro cpu₁ ⟨hrip₁, hrax₁, hrcx₁, hstacked₁⟩
  rw [← hrip₁] at hdivision
  refine (leads_division hdivision hrax₁ hrcx₁ hzero).leads.andThen ?_
  intro cpu₂ hyields
  rw [← hyields.rip] at hresult
  exact leads_result (hstacked₁.of_keeps hyields.toKeeps) hyields.rax hroom hresult

theorem leads_divisionByZero (hzero : rhs = 0)
    (h : cpu.Carries process stackBased activation slots out err (rhs :: lhs :: rest))
    (hhigh : process.high < 18446744073709551616)
    (hstands : process.Stands (Code.script (if stackBased then [.pop .rcx, .pop .rax]
      else [.mov .rcx .rax, .pop .rax]) ++ division addr remainder ++
      Code.script (onlyIf stackBased [.push .rax])) cpu.rip last) :
    process.Leads cpu fun cpu' => cpu'.rip = process.label .trap ∧
      cpu'.Stacked process activation slots out err rest := by
  obtain ⟨middle, hfirst, -⟩ := hstands.append
  obtain ⟨operands, hfetch, hdivision⟩ := hfirst.append
  refine (advances_dividend h hhigh hfetch).leads.andThen ?_
  intro cpu₁ ⟨hrip₁, hrax₁, hrcx₁, hstacked₁⟩
  rw [← hrip₁] at hdivision
  obtain ⟨events, cpu₂, hrun, -, -, hkeeps, hrip₂⟩ := run_trap hdivision hrcx₁ hzero
  exact ⟨cpu₂, hrun.reaches, hrip₂, hstacked₁.of_keeps hkeeps⟩

end

/-- The trap writes its message and leaves. -/
theorem leads_trapRoutine (htrap : process.Contains Routines.trap)
    (htext : process.Contains (Routines.datum .trapText Machine.trapMessage))
    (hrip : cpu.rip = process.label .trap) (h : cpu.Stacked process activation slots out err rest) :
    process.Leads cpu fun cpu' => cpu'.rip = process.label .leave ∧
      cpu'.register .rax = Machine.trapStatus.toBitVec ∧ cpu'.Stacked process activation slots out
        (err ++ Bytes.ofText Machine.trapMessage) rest := by
  obtain ⟨first, last, hlabel, n₁, h₁, n₂, h₂, n₃, h₃, n₄, h₄, n₅, h₅, n₆, h₆, n₇, h₇, -⟩ := htrap
  rw [← hrip.trans hlabel] at h₁
  have hsize : (Machine.trapMessage.utf8ByteSize.toUInt32.toBitVec.setWidth 64).toNat =
      (Bytes.ofText Machine.trapMessage).toList.length := by decide +kernel
  have hbuffer : cpu.buffer? process (process.label .trapText).toNat
      (Machine.trapMessage.utf8ByteSize.toUInt32.toBitVec.setWidth 64).toNat =
        some (Bytes.ofText Machine.trapMessage).toList := by
    rw [hsize]
    exact buffer_datum htext cpu
  refine .step h₁ rfl (.step h₂ rfl (.step h₃ rfl (.step h₄ rfl ?_)))
  refine .step h₅ (Cpu.perform_syscall_err rfl rfl hbuffer) (.step h₆ rfl (.step h₇ rfl (.now ?_)))
  exact ⟨rfl, rfl, h.rbp, h.holds.of_eq rfl rfl, h.out, congrArg (· ++ _) h.err⟩

theorem advances_jumpIf {target : CodeLabel}
    (h : cpu.Carries process stackBased activation slots out err (value :: rest))
    (hhigh : process.high < 18446744073709551616)
    (hstands : process.Stands (Code.script (if stackBased then [.pop .rax, .alu .test .rax .rax]
      else [.alu .test .rax .rax] ++ onlyIf (1 < (value :: rest).length) [.pop .rax]) ++
      Code.script [.jumpIf .notZero target]) cpu.rip last) :
    process.Advances cpu fun cpu' =>
      cpu'.rip = (if value != 0 then process.label target else last) ∧
      cpu'.Carries process stackBased activation slots out err rest := by
  obtain ⟨middle, htest, next, hbranch, rfl⟩ := hstands.append
  have htested : process.Advances cpu fun cpu' => cpu'.rip = middle ∧
      cpu'.flags = some (.ofResult (value.toBitVec &&& value.toBitVec) false) ∧
      cpu'.Carries process stackBased activation slots out err rest := by
    cases stackBased with
    | false =>
        obtain ⟨n₁, h₁, hrefill⟩ := htest
        have htop := h.top rfl value rfl
        refine .head (h₁.moves rfl) (.mono (leads_refill
          (h.stacked.of_keeps ⟨rfl, rfl, rfl, rfl, rfl⟩) hhigh hrefill) ?_)
        rintro cpu' ⟨hrip, hflags, hcarries⟩
        refine ⟨hrip, hflags.trans ?_, hcarries⟩
        rw [← htop]
        rfl
    | true =>
        obtain ⟨n₁, h₁, n₂, h₂, rfl⟩ := htest
        obtain ⟨hpop, hpopped⟩ := h.stacked.pop hhigh (by decide) (by decide) h₁
        refine .head hpop (.head (h₂.moves rfl) (.now ⟨rfl, rfl, ?_, fun hmode => by cases hmode⟩))
        exact hpopped.of_keeps ⟨rfl, rfl, rfl, rfl, rfl⟩
  refine htested.andThen ?_
  rintro cpu' ⟨hrip, hflags, hcarries⟩
  rw [← hrip] at hbranch
  have hgoto : ∀ rip, (cpu'.goto rip).Carries process stackBased activation slots out err rest :=
    fun rip => ⟨hcarries.stacked.of_keeps ⟨rfl, rfl, rfl, rfl, rfl⟩, hcarries.top⟩
  have hpasses := Flags.passes_test (rfl : value.toBitVec = value.toBitVec) .notZero
  rw [Test.holds] at hpasses
  cases hzero : value != 0 with
  | false => exact .passed hbranch hflags (hpasses.trans hzero) (.now ⟨rfl, hgoto _⟩)
  | true => exact .taken hbranch hflags (hpasses.trans hzero) (.now ⟨rfl, hgoto _⟩)

theorem advances_print {ty : Ty} (hprints : process.Prints ty)
    (h : cpu.Carries process stackBased activation slots out err (value :: rest))
    (hhigh : process.high < 18446744073709551616)
    (hroom : Cpu.Stacked.Room process activation slots rest 48)
    (hstands : process.Stands (Code.script (if stackBased then [.pop .rdi, .call (printer ty)]
      else [.mov .rdi .rax, .call (printer ty)] ++ onlyIf (1 < (value :: rest).length) [.pop .rax]))
        cpu.rip last) :
    process.Advances cpu fun cpu' => cpu'.rip = last ∧ cpu'.Carries process stackBased activation slots
      (out ++ Bytes.ofText (Machine.printed value ty)) err rest := by
  cases stackBased with
  | false =>
      obtain ⟨n₁, h₁, n₂, h₂, hrefill⟩ := hstands
      have hmoved : Cpu.Stacked process activation slots out err rest
          ((cpu.goto n₁).set .rdi (cpu.register .rax)) :=
        h.stacked.of_keeps ⟨rfl, rfl, rfl, rfl, rfl⟩
      refine .head (h₁.moves rfl) ((hmoved.print hroom hprints (h.top rfl value rfl) h₂).leads.andThen ?_)
      rintro cpu' ⟨hrip, hstacked⟩
      rw [← hrip] at hrefill
      exact (leads_refill hstacked hhigh hrefill).mono fun _ h => ⟨h.1, h.2.2⟩
  | true =>
      obtain ⟨n₁, h₁, n₂, h₂, rfl⟩ := hstands
      obtain ⟨hpop, hpopped⟩ := h.stacked.pop hhigh (by decide) (by decide) h₁
      refine .head hpop (.mono (hpopped.print hroom hprints rfl h₂).leads ?_)
      rintro cpu' ⟨hrip, hstacked⟩
      exact ⟨hrip, hstacked, fun hmode => by cases hmode⟩

theorem leads_exit (h : cpu.Carries process stackBased activation slots out err (value :: rest))
    (hhigh : process.high < 18446744073709551616)
    (hstands : process.Stands (Code.script (onlyIf stackBased [.pop .rax] ++ [.jump .leave])) cpu.rip
      last) :
    process.Leads cpu fun cpu' => cpu'.rip = process.label .leave ∧
      cpu'.register .rax = value.toBitVec ∧ cpu'.Stacked process activation slots out err rest := by
  rw [Code.script_append] at hstands
  obtain ⟨middle, hfetch, next, hhas, rfl⟩ := hstands.append
  refine (leads_fetch h hhigh hfetch).andThen ?_
  intro cpu₁ ⟨hrip₁, hrax₁, hstacked₁⟩
  rw [← hrip₁] at hhas
  exact .step hhas rfl (.now ⟨rfl, hrax₁, hstacked₁.of_keeps ⟨rfl, rfl, rfl, rfl, rfl⟩⟩)

end GotoLang.X64
