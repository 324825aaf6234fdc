import GotoLang.Proofs.X64.Operators

/-!
# Printing in machine code

The routine for numbers puts the digits into memory from the last one on, each in front of those it has
already: what stands between the pointer and the frame pointer is always the end of the text. On its way
it stores nothing outside of its frame and makes no system call but the one that writes. Both routines
write the text of a value and return with the stack as it was before the call.
-/
namespace GotoLang

namespace Bytes

theorem ofText_append (first second : String) :
    ofText (first ++ second) = ofText first ++ ofText second := by
  rw [ofText, String.toUTF8, String.toByteArray_append, ByteArray.data_append]
  rfl

/-- The byte of a decimal digit. -/
def digit (d : Nat) : UInt8 :=
  (48 + d).toUInt8

/-- The bytes of a number in decimal notation. -/
def decimal (n : Nat) : List UInt8 :=
  (Nat.toDigits 10 n).flatMap String.utf8EncodeChar

theorem ofText_repr (n : Nat) : ofText (Nat.repr n) = (decimal n).toArray := by
  rw [ofText, String.toUTF8, Nat.repr, String.toByteArray_ofList, List.utf8Encode,
    List.data_toByteArray]
  rfl

theorem utf8EncodeChar_digitChar {d : Nat} (h : d < 10) :
    String.utf8EncodeChar (Nat.digitChar d) = [digit d] := by
  have hall : ∀ d : Fin 10, String.utf8EncodeChar (Nat.digitChar d) = [digit d] := by
    decide +kernel
  exact hall ⟨d, h⟩

theorem decimal_of_lt {n : Nat} (h : n < 10) : decimal n = [digit n] := by
  rw [decimal, Nat.toDigits_of_lt_base h, List.flatMap_singleton, utf8EncodeChar_digitChar h]

theorem decimal_of_le {n : Nat} (h : 10 ≤ n) : decimal n = decimal (n / 10) ++ [digit (n % 10)] := by
  have hlast : n % 10 < 10 := Nat.mod_lt n (by omega)
  rw [decimal, Nat.toDigits_of_base_le (by omega) h, List.flatMap_append, List.flatMap_singleton,
    utf8EncodeChar_digitChar hlast]
  rfl

theorem length_decimal {n k : Nat} (h : n < Nat.pow 10 (k + 1)) : (decimal n).length ≤ k + 1 := by
  induction k generalizing n with
  | zero =>
      rw [decimal_of_lt h]
      exact Nat.le_refl 1
  | succ k ih =>
      by_cases hn : n < 10
      · rw [decimal_of_lt hn, List.length_singleton]
        omega
      · have hpow : Nat.pow 10 (k + 1 + 1) = Nat.pow 10 (k + 1) * 10 := rfl
        have hrest := ih (n := n / 10) (by omega)
        rw [decimal_of_le (by omega), List.length_append, List.length_singleton]
        omega

/-- The bytes of a signed number. -/
def signed (value : Int) : List UInt8 :=
  if value < 0 then 45 :: decimal value.natAbs else decimal value.natAbs

/-- A word has at most twenty digits. -/
theorem length_decimal_natAbs (value : Word) : (decimal value.toInt.natAbs).length ≤ 20 := by
  apply length_decimal
  have hlow := value.le_toInt
  have hhigh := value.toInt_lt
  have hpow : Nat.pow 10 (19 + 1) = 100000000000000000000 := by decide
  omega

theorem length_signed (value : Word) : (signed value.toInt).length ≤ 21 := by
  have hdigits := length_decimal_natAbs value
  rw [signed]
  split
  · rw [List.length_cons]
    omega
  · omega

theorem ofText_printed_int (value : Word) :
    ofText (Machine.printed value .int) = (signed value.toInt ++ [10]).toArray := by
  have hend : ofText "\n" = #[10] := by decide +kernel
  have hsign : ofText "-" = #[45] := by decide +kernel
  show ofText (Int.repr value.toInt ++ "\n") = _
  rw [ofText_append, hend]
  cases value.toInt with
  | ofNat n =>
      show ofText (Nat.repr n) ++ _ = _
      rw [ofText_repr, signed, if_neg (by simp)]
      simp
  | negSucc n =>
      show ofText ("-" ++ Nat.repr (n + 1)) ++ _ = _
      rw [ofText_append, hsign, ofText_repr, signed, if_pos (Int.negSucc_lt_zero n)]
      simp [Int.natAbs_negSucc]

end Bytes

namespace X64

/-- A routine has put the end of a text right below its frame pointer, and changed nothing above. -/
structure Cpu.Writing (start cpu : Cpu) (text : List UInt8) : Prop where
  rsp : cpu.register .rsp = start.register .rsp
  rbp : cpu.register .rbp = start.register .rbp
  rdi : cpu.register .rdi = start.register .rdi
  out : cpu.out = start.out
  err : cpu.err = start.err
  text : cpu.memory.read ((start.register .rbp).toNat - text.length) text.length = text
  above : ∀ x, (start.register .rbp).toNat ≤ x → cpu.memory x = start.memory x

namespace Cpu

/-- A byte where `rsi` points. -/
def put (cpu : Cpu) (byte : UInt8) : Cpu :=
  { cpu with memory := cpu.memory.write (cpu.register .rsi).toNat [byte] }

/-- The pointer is so many bytes below the frame pointer of a routine. -/
def PointsBelow (start cpu : Cpu) (count : Nat) : Prop :=
  (cpu.register .rsi).toNat + count = (start.register .rbp).toNat

variable {process : Process} {start cpu cpu' : Cpu} {text : List UInt8}

theorem Writing.of_eq (h : start.Writing cpu text) (hrsp : cpu'.register .rsp = cpu.register .rsp)
    (hrbp : cpu'.register .rbp = cpu.register .rbp) (hrdi : cpu'.register .rdi = cpu.register .rdi)
    (hmemory : cpu'.memory = cpu.memory) (hout : cpu'.out = cpu.out) (herr : cpu'.err = cpu.err) :
    start.Writing cpu' text := by
  refine ⟨hrsp.trans h.rsp, hrbp.trans h.rbp, hrdi.trans h.rdi, hout.trans h.out, herr.trans h.err, ?_,
    ?_⟩
  · rw [hmemory]
    exact h.text
  · rw [hmemory]
    exact h.above

theorem Writing.storeByte (h : start.Writing cpu text)
    (hrsi : start.PointsBelow cpu (text.length + 1))
    (hlow : process.low ≤ (cpu.register .rsi).toNat)
    (hhigh : (start.register .rbp).toNat ≤ process.high) {byte : UInt8}
    (hbyte : littleEndian 1 (cpu.register .rdx).toNat = [byte]) :
    cpu.perform process .storeByte = .next (cpu.put byte) ∧
      start.Writing (cpu.put byte) (byte :: text) := by
  rw [PointsBelow] at hrsi
  constructor
  · have hstack : process.onStack (cpu.register .rsi).toNat [byte].length = true := by
      rw [Process.onStack, Bool.and_eq_true, decide_eq_true_eq, decide_eq_true_eq,
        List.length_singleton]
      omega
    rw [Cpu.perform, hbyte, Cpu.store, if_pos hstack]
    rfl
  · refine ⟨h.rsp, h.rbp, h.rdi, h.out, h.err, ?_, ?_⟩
    · have hbelow : (start.register .rbp).toNat - (byte :: text).length =
          (cpu.register .rsi).toNat := by
        rw [List.length_cons]
        omega
      have hrest : (start.register .rbp).toNat - text.length = (cpu.register .rsi).toNat + 1 := by
        omega
      have hold := h.text
      rw [hrest] at hold
      have hfirst := Memory.read_write cpu.memory (cpu.register .rsi).toNat [byte]
      rw [hbelow, List.length_cons, Nat.add_comm, Memory.read_add]
      show (cpu.memory.write _ [byte]).read _ [byte].length ++ _ = [byte] ++ text
      rw [hfirst]
      congr 1
      conv => rhs; rw [← hold]
      refine Memory.read_congr fun x hx _ => ?_
      exact Memory.write_of_le hx
    · intro x hx
      rw [← h.above x hx]
      refine Memory.write_of_le ?_
      rw [List.length_singleton]
      omega

/-- A division of a single word without sign. -/
theorem perform_div {src : Register} {divisor : Nat} (hrdx : cpu.register .rdx = 0)
    (hsrc : (cpu.register src).toNat = divisor) (hpos : 0 < divisor) :
    cpu.perform process (.div src) =
      .next (cpu.divided (.ofNat 64 ((cpu.register .rax).toNat / divisor))
        (.ofNat 64 ((cpu.register .rax).toNat % divisor))) := by
  have hzero : (0 : BitVec 64).toNat = 0 := rfl
  have hlt : (cpu.register .rax).toNat / divisor < 18446744073709551616 :=
    (Nat.div_le_self _ _).trans_lt (cpu.register .rax).isLt
  simp only [perform, divide, hrdx, hsrc, hzero, Nat.zero_mul, Nat.zero_add]
  rw [if_neg (by omega)]

theorem PointsBelow.dec {count : Nat} (h : start.PointsBelow cpu count)
    (hcount : count < (start.register .rbp).toNat) :
    (cpu.register .rsi - 1).toNat + (count + 1) = (start.register .rbp).toNat := by
  rw [PointsBelow] at h
  have hsub : (cpu.register .rsi - 1).toNat = (cpu.register .rsi).toNat - 1 := by
    apply BitVec.toNat_sub_of_le
    rw [BitVec.le_def]
    show 1 ≤ _
    omega
  omega

end Cpu

variable {process : Process} {start cpu : Cpu} {text : List UInt8} {last : BitVec 64} {low high : Nat}

/-- A routine may store between two addresses of the stack, of which the second is its frame pointer. -/
structure Cpu.Reserves (process : Process) (start : Cpu) (low high : Nat) : Prop where
  floor : process.low ≤ low
  ceiling : high ≤ process.high
  rbp : (start.register .rbp).toNat = high

/-- An event without a system call that stores between two addresses only. -/
structure Event.Confined (process : Process) (low high : Nat) (event : Event) : Prop where
  quiet : event.systemCall? process = none
  stores : event.StoresWithin low high

theorem Event.Confined.of_none {event : Event} (hquiet : event.systemCall? process = none)
    (hstores : event.stores? = none) : event.Confined process low high :=
  ⟨hquiet, storesWithin_of_none hstores⟩

theorem Process.LeadsBy.storeByte {Q : Cpu → Prop} {next : BitVec 64}
    (hhas : process.Has cpu.rip .storeByte next) (hwriting : start.Writing cpu text)
    (hrsi : start.PointsBelow cpu (text.length + 1)) (hreserves : start.Reserves process low high)
    (hroom : low + (text.length + 1) ≤ high) {byte : UInt8}
    (hbyte : littleEndian 1 (cpu.register .rdx).toNat = [byte])
    (hrest : start.Writing ((cpu.goto next).put byte) (byte :: text) →
      process.LeadsBy (Event.Confined process low high) ((cpu.goto next).put byte) Q) :
    process.LeadsBy (Event.Confined process low high) cpu Q := by
  obtain ⟨hlow, hhigh, hrbp⟩ := hreserves
  have hsum : (cpu.register .rsi).toNat + (text.length + 1) = high := hrsi.trans hrbp
  have hwriting' : start.Writing (cpu.goto next) text := hwriting.of_eq rfl rfl rfl rfl rfl rfl
  have hlow' : process.low ≤ ((cpu.goto next).register .rsi).toNat := by
    rw [Cpu.register_goto]
    omega
  obtain ⟨hstore, hwritten⟩ := hwriting'.storeByte hrsi hlow' (by omega) hbyte
  refine .step hhas ⟨rfl, fun addr count hstores => ?_⟩ hstore (hrest hwritten)
  cases hstores
  show low ≤ (cpu.register .rsi).toNat ∧ (cpu.register .rsi).toNat + 1 ≤ high
  omega

namespace Routines

/-- The part of the loop that puts one digit. -/
def nextDigit : Code :=
  [.clear .rdx, .div .rcx, .addByte .rdx 48, .dec .rsi, .storeByte, .alu .test .rax .rax]

def digits : Code :=
  nextDigit ++ [.jumpIf .notZero .printIntDigit]

end Routines

/-- The low byte of a digit to which 48 was added. -/
theorem littleEndian_digit {d : Nat} (h : d < 10) :
    littleEndian 1 ((((BitVec.ofNat 64 d).setWidth 32 + (48 : Int8).toBitVec.signExtend 32).setWidth
      64).toNat : Int) = [Bytes.digit d] := by
  have hall : ∀ d : Fin 10, littleEndian 1 ((((BitVec.ofNat 64 d).setWidth 32 +
      (48 : Int8).toBitVec.signExtend 32).setWidth 64).toNat : Int) = [Bytes.digit d] := by
    decide +kernel
  exact hall ⟨d, h⟩

theorem leads_nextDigit (hstands : process.Stands (Code.script Routines.nextDigit) cpu.rip last)
    (hten : cpu.register .rcx = 10) (hwriting : start.Writing cpu text)
    (hrsi : start.PointsBelow cpu text.length) (hreserves : start.Reserves process low high)
    (hroom : low + (text.length + 1) ≤ high) :
    process.LeadsBy (Event.Confined process low high) cpu fun cpu' => cpu'.rip = last ∧
      cpu'.flags = some (.ofResult (cpu'.register .rax &&& cpu'.register .rax) false) ∧
      (cpu'.register .rax).toNat = (cpu.register .rax).toNat / 10 ∧ cpu'.register .rcx = 10 ∧
      start.Writing cpu' (Bytes.digit ((cpu.register .rax).toNat % 10) :: text) ∧
      start.PointsBelow cpu' (text.length + 1) := by
  obtain ⟨n₁, h₁, n₂, h₂, n₃, h₃, n₄, h₄, n₅, h₅, n₆, h₆, rfl⟩ := hstands
  have hlast : (cpu.register .rax).toNat % 10 < 10 := Nat.mod_lt _ (by omega)
  have hten' : (cpu.register .rcx).toNat = 10 := by
    rw [hten]
    rfl
  have hquotient : (BitVec.ofNat 64 ((cpu.register .rax).toNat / 10)).toNat =
      (cpu.register .rax).toNat / 10 := by
    rw [BitVec.toNat_ofNat, Nat.mod_eq_of_lt]
    exact (Nat.div_le_self _ _).trans_lt (cpu.register .rax).isLt
  have hbelow := hrsi.dec (by rw [hreserves.rbp]; omega)
  refine .step h₁ (.of_none rfl rfl) rfl ?_
  refine .step h₂ (.of_none rfl rfl) (Cpu.perform_div rfl hten' (by omega)) ?_
  refine .step h₃ (.of_none rfl rfl) rfl (.step h₄ (.of_none rfl rfl) rfl ?_)
  refine .storeByte h₅ (hwriting.of_eq rfl rfl rfl rfl rfl rfl) hbelow hreserves hroom
    (littleEndian_digit hlast) fun hwritten => ?_
  refine .step h₆ (.of_none rfl rfl) rfl (.now ⟨rfl, rfl, hquotient, hten, ?_, hbelow⟩)
  exact hwritten.of_eq rfl rfl rfl rfl rfl rfl

/-- The loop puts all digits of a number, by induction on the number. -/
theorem leads_digits (hstands : process.Stands (Code.script Routines.digits)
      (process.label .printIntDigit) last) {n : Nat} {cpu : Cpu} {text : List UInt8}
    (hrip : cpu.rip = process.label .printIntDigit) (hn : (cpu.register .rax).toNat = n)
    (hten : cpu.register .rcx = 10) (hwriting : start.Writing cpu text)
    (hrsi : start.PointsBelow cpu text.length) (hreserves : start.Reserves process low high)
    (hroom : low + ((Bytes.decimal n).length + text.length) ≤ high) :
    process.LeadsBy (Event.Confined process low high) cpu fun cpu' => cpu'.rip = last ∧
      start.Writing cpu' (Bytes.decimal n ++ text) ∧
      start.PointsBelow cpu' (Bytes.decimal n ++ text).length := by
  have hparts : process.Stands (Code.script Routines.nextDigit ++
      Code.script [.jumpIf .notZero .printIntDigit]) (process.label .printIntDigit) last := hstands
  obtain ⟨branch, hdigit, next, hbranch, rfl⟩ := hparts.append
  induction n using Nat.strongRecOn generalizing cpu text with
  | ind n ih =>
      rw [← hrip] at hdigit
      have hpositive : 0 < (Bytes.decimal n).length := by
        by_cases h : n < 10
        · rw [Bytes.decimal_of_lt h]
          exact Nat.one_pos
        · rw [Bytes.decimal_of_le (by omega), List.length_append, List.length_singleton]
          omega
      refine (leads_nextDigit hdigit hten hwriting hrsi hreserves (by omega)).andThen ?_
      rintro cpu' ⟨hrip', hflags, hquotient, hten', hwriting', hrsi'⟩
      rw [hn] at hquotient hwriting'
      rw [← hrip'] at hbranch
      by_cases hlast : n < 10
      · rw [Bytes.decimal_of_lt hlast]
        rw [Nat.mod_eq_of_lt hlast] at hwriting'
        have hzero : cpu'.register .rax = 0 := by
          apply BitVec.eq_of_toNat_eq
          rw [hquotient]
          exact Nat.div_eq_of_lt hlast
        rw [hzero] at hflags
        exact .passed hbranch (.of_none rfl rfl) hflags rfl (.now ⟨rfl, hwriting'.of_eq rfl rfl rfl rfl rfl rfl, hrsi'⟩)
      · have hpasses : (Flags.ofResult (cpu'.register .rax &&& cpu'.register .rax) false).passes
            .notZero = true := by
          rw [BitVec.and_self]
          show (!(cpu'.register .rax == 0)) = true
          rw [Bool.not_eq_true', beq_eq_false_iff_ne]
          intro hzero
          rw [hzero] at hquotient
          have h : 0 = n / 10 := hquotient
          omega
        rw [Bytes.decimal_of_le (by omega)] at hroom ⊢
        rw [List.length_append, List.length_singleton] at hroom
        rw [List.append_assoc]
        refine .taken hbranch (.of_none rfl rfl) hflags hpasses ?_
        refine ih (n / 10) (by omega) rfl hquotient hten' (hwriting'.of_eq rfl rfl rfl rfl rfl rfl) hrsi' ?_
        rw [List.length_append, List.length_singleton]
        omega

section
variable {bytes : List UInt8}

theorem Cpu.perform_syscall_out (hrax : cpu.register .rax = 1) (hrdi : cpu.register .rdi = 1)
    (hbuffer : cpu.buffer? process (cpu.register .rsi).toNat (cpu.register .rdx).toNat = some bytes) :
    cpu.perform process .syscall =
      .next { cpu.returned (cpu.register .rdx) with out := cpu.out ++ bytes.toArray } := by
  simp only [perform, systemCall, hrax, hrdi, hbuffer]
  rfl

theorem Cpu.perform_syscall_err (hrax : cpu.register .rax = 1) (hrdi : cpu.register .rdi = 2)
    (hbuffer : cpu.buffer? process (cpu.register .rsi).toNat (cpu.register .rdx).toNat = some bytes) :
    cpu.perform process .syscall =
      .next { cpu.returned (cpu.register .rdx) with err := cpu.err ++ bytes.toArray } := by
  simp only [perform, systemCall, hrax, hrdi, hbuffer]
  rfl

end

theorem Process.Leads.pop {Q : Cpu → Prop} {dst : Register} {next w : BitVec 64}
    {ws : List (BitVec 64)} (hhas : process.Has cpu.rip (.pop dst) next)
    (hholds : cpu.Holds process (w :: ws)) (hhigh : process.high < 18446744073709551616)
    (hrest : (cpu.goto next).popped.Holds process ws →
      process.Leads ((cpu.goto next).popped.set dst w) Q) : process.Leads cpu Q := by
  have hholds' : (cpu.goto next).Holds process (w :: ws) := hholds.of_eq rfl rfl
  obtain ⟨hpop, hpopped⟩ := hholds'.pop hhigh fun value cpu => .next (cpu.set dst value)
  exact .step hhas hpop (hrest hpopped)

theorem Process.Leads.ret {Q : Cpu → Prop} {next w : BitVec 64} {ws : List (BitVec 64)}
    (hhas : process.Has cpu.rip .ret next) (hholds : cpu.Holds process (w :: ws))
    (hhigh : process.high < 18446744073709551616)
    (hrest : (cpu.goto next).popped.Holds process ws →
      process.Leads ((cpu.goto next).popped.goto w) Q) : process.Leads cpu Q := by
  have hholds' : (cpu.goto next).Holds process (w :: ws) := hholds.of_eq rfl rfl
  obtain ⟨hpop, hpopped⟩ := hholds'.pop hhigh fun value cpu => .next (cpu.goto value)
  exact .step hhas hpop (hrest hpopped)

/-- What a printing routine leaves: control is back, with the words below the return address. -/
structure Cpu.Printed (process : Process) (start : Cpu) (saved back : BitVec 64)
    (ws : List (BitVec 64)) (text : Bytes) (cpu : Cpu) : Prop where
  rip : cpu.rip = back
  rbp : cpu.register .rbp = saved
  holds : cpu.Holds process ws
  out : cpu.out = start.out ++ text
  err : cpu.err = start.err

namespace Routines

/-- The part that puts a sign. -/
def putSign : Code :=
  [.alu .test .rdi .rdi, .jumpIf .notNegative .printIntWrite, .dec .rsi, .movLow .rdx 45, .storeByte]

/-- The part that sets up the system call. -/
def prepareWrite : Code :=
  [.mov .rdx .rbp, .alu .sub .rdx .rsi, .movLow .rax writeCall, .movLow .rdi standardOutput]

/-- The end of the routine for numbers. -/
def leaveFrame : Code :=
  [.mov .rsp .rbp, .pop .rbp, .ret]

end Routines

/-- A routine that was called with a word in `rdi`, after it saved the frame pointer of its caller. -/
structure Cpu.Framed (caller start : Cpu) : Prop where
  rdi : start.register .rdi = caller.register .rdi
  out : start.out = caller.out
  err : start.err = caller.err
  rbp : start.register .rbp = caller.register .rsp - 8
  saved : start.memory.word (start.register .rbp).toNat = caller.register .rbp
  above : ∀ x, (caller.register .rsp).toNat ≤ x → start.memory x = caller.memory x

/-- A routine is back where it was called from, has written a text and left the stack as it was. -/
structure Cpu.CameBack (caller : Cpu) (text : Bytes) (cpu : Cpu) : Prop where
  rip : cpu.rip = caller.memory.word (caller.register .rsp).toNat
  rsp : cpu.register .rsp = caller.register .rsp + 8
  rbp : cpu.register .rbp = caller.register .rbp
  out : cpu.out = caller.out ++ text
  err : cpu.err = caller.err

/-- The next instruction writes a text, and only the text below the frame pointer of the routine is new. -/
structure Cpu.WritesNext (process : Process) (start : Cpu) (text : List UInt8) (cpu : Cpu) : Prop where
  rax : cpu.register .rax = 1
  rdi : cpu.register .rdi = 1
  buffer : cpu.buffer? process (cpu.register .rsi).toNat (cpu.register .rdx).toNat = some text
  rbp : cpu.register .rbp = start.register .rbp
  above : ∀ x, (start.register .rbp).toNat ≤ x → cpu.memory x = start.memory x
  out : cpu.out = start.out
  err : cpu.err = start.err

theorem leads_prepareWrite
    (hstands : process.Stands (Code.script Routines.prepareWrite) cpu.rip last)
    (hwriting : start.Writing cpu text) (hrsi : start.PointsBelow cpu text.length)
    (hreserves : start.Reserves process low high) (hroom : low + text.length ≤ high) :
    process.LeadsBy (Event.Confined process low high) cpu fun cpu' => cpu'.rip = last ∧
      Cpu.WritesNext process start text cpu' := by
  obtain ⟨n₁, h₁, n₂, h₂, n₃, h₃, n₄, h₄, rfl⟩ := hstands
  obtain ⟨hlow, hhigh, hrbp⟩ := hreserves
  rw [Cpu.PointsBelow] at hrsi
  have hcount : (cpu.register .rbp - cpu.register .rsi).toNat = text.length := by
    rw [BitVec.toNat_sub_of_le, hwriting.rbp]
    · omega
    · rw [BitVec.le_def, hwriting.rbp]
      omega
  have hbuffer : cpu.buffer? process (cpu.register .rsi).toNat
      (cpu.register .rbp - cpu.register .rsi).toNat = some text := by
    have hstack : process.onStack (cpu.register .rsi).toNat text.length = true := by
      rw [Process.onStack, Bool.and_eq_true, decide_eq_true_eq, decide_eq_true_eq]
      omega
    have haddress : (start.register .rbp).toNat - text.length = (cpu.register .rsi).toNat := by omega
    have htext := hwriting.text
    rw [haddress] at htext
    rw [hcount, Cpu.buffer?, if_pos hstack, htext]
  refine .step h₁ (.of_none rfl rfl) rfl (.step h₂ (.of_none rfl rfl) rfl ?_)
  refine .step h₃ (.of_none rfl rfl) rfl (.step h₄ (.of_none rfl rfl) rfl (.now ⟨rfl, ?_⟩))
  exact ⟨rfl, rfl, hbuffer, hwriting.rbp, hwriting.above, hwriting.out, hwriting.err⟩

theorem leads_leaveFrame (hstands : process.Stands (Code.script Routines.leaveFrame) cpu.rip last)
    {frame saved back : BitVec 64} (hrbp : cpu.register .rbp = frame - 8)
    (hlow : process.low + 8 ≤ frame.toNat) (hhigh : frame.toNat + 8 ≤ process.high)
    (hsaved : cpu.memory.word (frame - 8).toNat = saved) (hback : cpu.memory.word frame.toNat = back) :
    process.LeadsBy (Event.Confined process low high) cpu fun cpu' => cpu'.rip = back ∧
      cpu'.register .rsp = frame + 8 ∧ cpu'.register .rbp = saved ∧ cpu'.out = cpu.out ∧
      cpu'.err = cpu.err := by
  obtain ⟨n₁, h₁, n₂, h₂, n₃, h₃, -⟩ := hstands
  have hframe : (frame - 8).toNat = frame.toNat - 8 := by
    apply BitVec.toNat_sub_of_le
    rw [BitVec.le_def]
    show 8 ≤ frame.toNat
    omega
  let popping := ((cpu.goto n₁).set .rsp (cpu.register .rbp)).goto n₂
  have hrsp : popping.register .rsp = frame - 8 := hrbp
  have hpop : popping.perform process (.pop .rbp) = .next (popping.popped.set .rbp saved) :=
    Cpu.pop_eq (congrArg BitVec.toNat hrsp) (by omega) (by omega) hsaved
      fun value cpu => .next (cpu.set .rbp value)
  let returning := (popping.popped.set .rbp saved).goto n₃
  have hrsp' : returning.register .rsp = frame := by
    show popping.register .rsp + 8 = frame
    rw [hrsp, BitVec.sub_add_cancel]
  have hret : returning.perform process .ret = .next (returning.popped.goto back) :=
    Cpu.pop_eq (congrArg BitVec.toNat hrsp') (by omega) (by omega) hback
      fun value cpu => .next (cpu.goto value)
  refine .step h₁ (.of_none rfl rfl) rfl (.step h₂ (.of_none rfl rfl) hpop ?_)
  refine .step h₃ (.of_none rfl rfl) hret (.now ⟨rfl, ?_, rfl, rfl, rfl⟩)
  exact congrArg (· + 8) hrsp'

theorem leads_putSign (hstands : process.Stands (Code.script Routines.putSign) cpu.rip
      (process.label .printIntWrite))
    {value : Word} (hrdi : start.register .rdi = value.toBitVec)
    (hwriting : start.Writing cpu (Bytes.decimal value.toInt.natAbs ++ text))
    (hrsi : start.PointsBelow cpu (Bytes.decimal value.toInt.natAbs ++ text).length)
    (hreserves : start.Reserves process low high)
    (hroom : low + ((Bytes.decimal value.toInt.natAbs ++ text).length + 1) ≤ high) :
    process.LeadsBy (Event.Confined process low high) cpu fun cpu' =>
      cpu'.rip = process.label .printIntWrite ∧
      start.Writing cpu' (Bytes.signed value.toInt ++ text) ∧
      start.PointsBelow cpu' (Bytes.signed value.toInt ++ text).length := by
  obtain ⟨n₁, h₁, n₂, h₂, n₃, h₃, n₄, h₄, n₅, h₅, hlast⟩ := hstands
  have htest := Flags.passes_test (hwriting.rdi.trans hrdi) .notNegative
  rw [Bytes.signed]
  by_cases hnegative : value.toInt < 0
  · have hpasses : Test.holds value .notNegative = false := by
      rw [Test.holds, decide_eq_false_iff_not]
      omega
    have hbelow := hrsi.dec (by rw [hreserves.rbp]; omega)
    rw [if_pos hnegative]
    refine .step h₁ (.of_none rfl rfl) rfl ?_
    refine .passed h₂ (.of_none rfl rfl) rfl (htest.trans hpasses) ?_
    refine .step h₃ (.of_none rfl rfl) rfl (.step h₄ (.of_none rfl rfl) rfl ?_)
    exact .storeByte h₅ (hwriting.of_eq rfl rfl rfl rfl rfl rfl) hbelow hreserves hroom rfl
      fun hwritten => .now ⟨hlast, hwritten, hbelow⟩
  · have hpasses : Test.holds value .notNegative = true := by
      rw [Test.holds, decide_eq_true_eq]
      omega
    rw [if_neg hnegative]
    refine .step h₁ (.of_none rfl rfl) rfl ?_
    exact .taken h₂ (.of_none rfl rfl) rfl (htest.trans hpasses)
      (.now ⟨rfl, hwriting.of_eq rfl rfl rfl rfl rfl rfl, hrsi⟩)

/-- A word, or its negation if it is negative, read without sign is the absolute value. -/
theorem toNat_natAbs (value : Word) : (0 ≤ value.toInt → value.toBitVec.toNat = value.toInt.natAbs) ∧
    (value.toInt < 0 → (-value.toBitVec).toNat = value.toInt.natAbs) := by
  have hvalue : value.toInt = value.toBitVec.toInt := rfl
  have hlt := value.toBitVec.isLt
  rw [hvalue, BitVec.toInt_eq_toNat_cond, BitVec.toNat_neg]
  split <;> constructor <;> intro h <;> omega

namespace Routines

/-- The beginning of the routine for numbers, behind the frame pointer that it saves. -/
def enterPrintInt : Code :=
  [.mov .rbp .rsp, .reserve 32, .leaFrame .rsi 1, .movLow .rdx 10, .storeByte, .mov .rax .rdi,
    .alu .test .rax .rax, .jumpIf .notNegative .printIntPositive, .neg .rax]

/-- All of the routine for numbers from there up to the system call. -/
def putText : Script :=
  (Code.script enterPrintInt ++ (.place .printIntPositive :: Code.script [.movLow .rcx 10])) ++
  (.place .printIntDigit :: Code.script digits) ++ Code.script putSign ++
  (.place .printIntWrite :: Code.script prepareWrite)

theorem printInt_eq : printInt = [.place .printInt, .emit (.push .rbp)] ++ putText ++
    Code.script (.syscall :: leaveFrame) := rfl

end Routines

theorem leads_enterPrintInt {next : BitVec 64}
    (hstands : process.Stands (Code.script Routines.enterPrintInt ++
      (.place .printIntPositive :: Code.script [.movLow .rcx 10])) next last)
    {caller : Cpu} {value : Word} (hrdi : caller.register .rdi = value.toBitVec)
    (hlow : process.low + 40 ≤ (caller.register .rsp).toNat)
    (hhigh : (caller.register .rsp).toNat ≤ process.high) :
    process.LeadsBy (Event.Confined process ((caller.register .rsp).toNat - 40)
        ((caller.register .rsp).toNat - 8)) ((caller.goto next).pushed (caller.register .rbp))
      fun cpu' => cpu'.rip = last ∧ (cpu'.register .rax).toNat = value.toInt.natAbs ∧
        cpu'.register .rcx = 10 ∧ ∃ start, caller.Framed start ∧
          start.Reserves process ((caller.register .rsp).toNat - 40) ((caller.register .rsp).toNat - 8) ∧
          start.Writing cpu' [10] ∧ start.PointsBelow cpu' 1 := by
  obtain ⟨n₂, h₂, n₃, h₃, n₄, h₄, n₅, h₅, n₆, h₆, n₇, h₇, n₈, h₈, n₉, h₉, n₁₀, h₁₀, hpositive, n₁₁, h₁₁,
    rfl⟩ := hstands
  let pushed := (caller.goto next).pushed (caller.register .rbp)
  let start := (pushed.set .rbp (pushed.register .rsp)).set .rsp (pushed.register .rsp - .ofNat 64 32)
  have hrsp : (caller.register .rsp - 8).toNat = (caller.register .rsp).toNat - 8 :=
    Cpu.toNat_rsp_sub (by omega)
  have hframed : caller.Framed start := by
    refine ⟨rfl, rfl, rfl, rfl, Memory.word_write _ _ _, fun x hx => ?_⟩
    refine Memory.write_of_le ?_
    rw [Memory.length_littleEndian]
    show (caller.register .rsp - 8).toNat + 8 ≤ x
    omega
  have hreserves : start.Reserves process ((caller.register .rsp).toNat - 40)
      ((caller.register .rsp).toNat - 8) := ⟨by omega, by omega, hrsp⟩
  have hbelow : (caller.register .rsp - 8 - .ofNat 64 1).toNat + 1 = (caller.register .rsp - 8).toNat := by
    have hone : (BitVec.ofNat 64 1).toNat = 1 := rfl
    rw [BitVec.toNat_sub_of_le, hone]
    · omega
    · rw [BitVec.le_def, hone]
      omega
  have htest := Flags.passes_test hrdi .notNegative
  refine .step h₂ (.of_none rfl rfl) rfl (.step h₃ (.of_none rfl rfl) rfl ?_)
  refine .step h₄ (.of_none rfl rfl) rfl (.step h₅ (.of_none rfl rfl) rfl ?_)
  refine .storeByte h₆ (show start.Writing _ [] from ⟨rfl, rfl, rfl, rfl, rfl, rfl, fun _ _ => rfl⟩)
    hbelow hreserves (by rw [List.length_nil]; omega) rfl fun hwritten => ?_
  refine .step h₇ (.of_none rfl rfl) rfl (.step h₈ (.of_none rfl rfl) rfl ?_)
  by_cases hnegative : value.toInt < 0
  · have hpasses : Test.holds value .notNegative = false := by
      rw [Test.holds, decide_eq_false_iff_not]
      omega
    refine .passed h₉ (.of_none rfl rfl) rfl (htest.trans hpasses) ?_
    refine .step h₁₀ (.of_none rfl rfl) rfl (.step h₁₁ (.of_none rfl rfl) rfl (.now ⟨rfl, ?_, rfl, start,
      hframed, hreserves, hwritten.of_eq rfl rfl rfl rfl rfl rfl, hbelow⟩))
    show (-caller.register .rdi).toNat = _
    rw [hrdi]
    exact (toNat_natAbs value).2 hnegative
  · have hpasses : Test.holds value .notNegative = true := by
      rw [Test.holds, decide_eq_true_eq]
      omega
    rw [← hpositive] at h₁₁
    refine .taken h₉ (.of_none rfl rfl) rfl (htest.trans hpasses) ?_
    refine .step h₁₁ (.of_none rfl rfl) rfl (.now ⟨rfl, ?_, rfl, start, hframed, hreserves,
      hwritten.of_eq rfl rfl rfl rfl rfl rfl, hbelow⟩)
    show (caller.register .rdi).toNat = _
    rw [hrdi]
    exact (toNat_natAbs value).1 (by omega)

theorem leads_putText {next call : BitVec 64} (hstands : process.Stands Routines.putText next call)
    {caller : Cpu} {value : Word} (hrdi : caller.register .rdi = value.toBitVec)
    (hlow : process.low + 40 ≤ (caller.register .rsp).toNat)
    (hhigh : (caller.register .rsp).toNat ≤ process.high) :
    process.LeadsBy (Event.Confined process ((caller.register .rsp).toNat - 40)
        ((caller.register .rsp).toNat - 8)) ((caller.goto next).pushed (caller.register .rbp))
      fun cpu' => cpu'.rip = call ∧ ∃ start, caller.Framed start ∧
        Cpu.WritesNext process start (Bytes.signed value.toInt ++ [10]) cpu' := by
  obtain ⟨write, hstands, hwriteLabel, hwrite⟩ := hstands.append
  obtain ⟨sign, hstands, hsign⟩ := hstands.append
  obtain ⟨loop, henter, hloopLabel, hloop⟩ := hstands.append
  rw [← hwriteLabel] at hsign hwrite
  rw [← hloopLabel] at henter hloop
  have hdigits := Bytes.length_decimal_natAbs value
  have hsigned := Bytes.length_signed value
  refine (leads_enterPrintInt henter hrdi hlow hhigh).andThen ?_
  rintro cpu₁ ⟨hrip₁, hrax, hrcx, start, hframed, hreserves, hwriting₁, hbelow₁⟩
  refine (leads_digits hloop hrip₁ hrax hrcx hwriting₁ hbelow₁ hreserves
    (by rw [List.length_singleton]; omega)).andThen ?_
  rintro cpu₂ ⟨hrip₂, hwriting₂, hbelow₂⟩
  rw [← hrip₂] at hsign
  refine (leads_putSign hsign (hframed.rdi.trans hrdi) hwriting₂ hbelow₂ hreserves
    (by rw [List.length_append, List.length_singleton]; omega)).andThen ?_
  rintro cpu₃ ⟨hrip₃, hwriting₃, hbelow₃⟩
  rw [← hrip₃] at hwrite
  refine (leads_prepareWrite hwrite hwriting₃ hbelow₃ hreserves
    (by rw [List.length_append, List.length_singleton]; omega)).mono ?_
  rintro cpu₄ ⟨hrip₄, hnext⟩
  exact ⟨hrip₄, start, hframed, hnext⟩

/-- The system call and what is behind it: the text is written, and control goes back to the caller. -/
theorem run_write (low high : Nat) {caller : Cpu} (hframed : caller.Framed start)
    (hnext : Cpu.WritesNext process start text cpu)
    (hstands : process.Stands (Code.script (.syscall :: Routines.leaveFrame)) cpu.rip last)
    (hlow : process.low + 8 ≤ (caller.register .rsp).toNat)
    (hhigh : (caller.register .rsp).toNat + 8 ≤ process.high) :
    ∃ events final, process.Run cpu (⟨cpu, .syscall⟩ :: events) final ∧
      (∀ event ∈ events, event.Confined process low high) ∧ caller.CameBack text.toArray final := by
  obtain ⟨next, hhas, hleave⟩ := hstands
  let written : Cpu := { (cpu.goto next).returned (cpu.register .rdx) with out := cpu.out ++ text.toArray }
  have hcall : (cpu.goto next).perform process .syscall = .next written :=
    Cpu.perform_syscall_out hnext.rax hnext.rdi hnext.buffer
  have hleave : process.Stands (Code.script Routines.leaveFrame) written.rip last := hleave
  have hframe : (start.register .rbp).toNat = (caller.register .rsp).toNat - 8 := by
    rw [hframed.rbp]
    exact Cpu.toNat_rsp_sub (by omega)
  have hsaved : written.memory.word (caller.register .rsp - 8).toNat = caller.register .rbp := by
    rw [← hframed.rbp, ← hframed.saved]
    exact Memory.word_congr fun x hx _ => hnext.above x hx
  have hback : written.memory.word (caller.register .rsp).toNat =
      caller.memory.word (caller.register .rsp).toNat := by
    refine Memory.word_congr fun x hx _ => ?_
    rw [← hframed.above x hx]
    exact hnext.above x (by omega)
  obtain ⟨events, final, hrun, hevents, hrip, hrsp, hrbp, hout, herr⟩ :=
    leads_leaveFrame hleave (hnext.rbp.trans hframed.rbp) hlow hhigh hsaved hback
  refine ⟨events, final, .step hhas.fetch hcall hrun, hevents, hrip, hrsp, hrbp, ?_, ?_⟩
  · rw [hout, ← hframed.out, ← hnext.out]
  · rw [herr, ← hframed.err, ← hnext.err]
    rfl

theorem Event.filterMap_confined {events : List Event}
    (h : ∀ event ∈ events, event.Confined process low high) :
    events.filterMap (systemCall? process) = [] :=
  List.filterMap_eq_nil_iff.mpr fun event hevent => (h event hevent).quiet

/-- A call of the routine for a type prints the word in `rdi` and comes back. -/
def Process.Prints (process : Process) (ty : Ty) : Prop :=
  ∀ (cpu : Cpu) (value : Word) (back : BitVec 64) (ws : List (BitVec 64)),
    cpu.rip = process.label (CodeGeneration.printer ty) → cpu.register .rdi = value.toBitVec →
    cpu.Holds process (back :: ws) → process.low + 8 * (ws.length + 2) + 32 ≤ process.high →
    process.Leads cpu (Cpu.Printed process cpu (cpu.register .rbp) back ws
      (Bytes.ofText (Machine.printed value ty)))

section
variable {value : Word}

/-- The routine for numbers saves the frame pointer, puts the text below it, writes it with a single
system call and goes back. -/
theorem run_printInt (h : process.Contains Routines.printInt) (hrip : cpu.rip = process.label .printInt)
    (hrdi : cpu.register .rdi = value.toBitVec) (hlow : process.low + 40 ≤ (cpu.register .rsp).toNat)
    (hhigh : (cpu.register .rsp).toNat + 8 ≤ process.high) :
    ∃ events final, process.Run cpu (⟨cpu, .push .rbp⟩ :: events) final ∧
      (∀ event ∈ events, event.StoresWithin ((cpu.register .rsp).toNat - 40)
        ((cpu.register .rsp).toNat - 8)) ∧
      events.filterMap (Event.systemCall? process) =
        [(1, 1, some (Bytes.ofText (Machine.printed value .int)).toList)] ∧
      cpu.CameBack (Bytes.ofText (Machine.printed value .int)) final := by
  rw [Routines.printInt_eq] at h
  obtain ⟨first, last, h⟩ := h
  obtain ⟨call, h, hcall⟩ := h.append
  obtain ⟨enter, ⟨hlabel, next, hhas, rfl⟩, htext⟩ := h.append
  rw [← hlabel, ← hrip] at hhas
  have hpush : (cpu.goto next).push process (cpu.register .rbp) =
      .next ((cpu.goto next).pushed (cpu.register .rbp)) := by
    apply Cpu.push_eq
    · rw [Cpu.register_goto]
      omega
    · rw [Cpu.register_goto]
      omega
  obtain ⟨events, cpu', hrun, hevents, rfl, start, hframed, hnext⟩ :=
    leads_putText htext hrdi hlow (by omega)
  obtain ⟨events', final, hrun', hevents', hback⟩ :=
    run_write ((cpu.register .rsp).toNat - 40) ((cpu.register .rsp).toNat - 8) hframed hnext hcall
      (by omega) hhigh
  rw [Bytes.ofText_printed_int]
  refine ⟨events ++ ⟨cpu', .syscall⟩ :: events', final, .step hhas.fetch hpush (hrun.append hrun'), ?_, ?_,
    hback⟩
  · intro event hevent
    rcases List.mem_append.mp hevent with hevent | hevent
    · exact (hevents event hevent).stores
    · rcases List.mem_cons.mp hevent with rfl | hevent
      · exact Event.storesWithin_of_none rfl
      · exact (hevents' event hevent).stores
  · have hwrite : Event.systemCall? process ⟨cpu', .syscall⟩ =
        some (1, 1, some (Bytes.signed value.toInt ++ [10])) := by
      simp only [Event.systemCall?, hnext.rax, hnext.rdi, hnext.buffer]
    rw [List.filterMap_append, List.filterMap_cons, Event.filterMap_confined hevents, hwrite,
      Event.filterMap_confined hevents']
    rfl

/-- Below the words of the caller, the routine changes what it reserved and the word it pushes. -/
theorem memory_printInt {events : List Event} {final : Cpu}
    (hrun : process.Run cpu (⟨cpu, .push .rbp⟩ :: events) final) (hrsp : 8 ≤ (cpu.register .rsp).toNat)
    (hstores : ∀ event ∈ events, event.StoresWithin ((cpu.register .rsp).toNat - 40)
      ((cpu.register .rsp).toNat - 8)) {x : Nat}
    (hx : x < (cpu.register .rsp).toNat - 40 ∨ (cpu.register .rsp).toNat ≤ x) :
    final.memory x = cpu.memory x := by
  have htop : (cpu.register .rsp - 8).toNat = (cpu.register .rsp).toNat - 8 := Cpu.toNat_rsp_sub hrsp
  refine hrun.memory_eq (List.forall_mem_cons.mpr ⟨fun addr count hpush => ?_, fun event hevent => ?_⟩)
  · cases hpush
    show x < (cpu.register .rsp - 8).toNat ∨ (cpu.register .rsp - 8).toNat + 8 ≤ x
    omega
  · exact (hstores event hevent).spares (by omega)

theorem prints_int (hhigh : process.high < 18446744073709551616)
    (h : process.Contains Routines.printInt) : process.Prints .int := by
  intro cpu value back ws hrip hrdi hholds hroom
  have htop : (cpu.register .rsp).toNat + 8 * (ws.length + 1) = process.high := hholds.high
  obtain ⟨events, final, hrun, hstores, -, hback⟩ :=
    run_printInt h hrip hrdi (by omega) (by omega)
  have hpopped := (hholds.pop hhigh fun _ cpu => .next cpu).2
  have hrsp : (cpu.register .rsp + 8).toNat = (cpu.register .rsp).toNat + 8 := by
    apply BitVec.toNat_add_of_lt
    show (cpu.register .rsp).toNat + 8 < _
    omega
  refine ⟨final, hrun.reaches, hback.rip.trans (hholds.words 0 back rfl), hback.rbp, ?_, hback.out,
    hback.err⟩
  refine hpopped.congr hback.rsp fun x hx => memory_printInt hrun (by omega) hstores (.inr ?_)
  have hx : (cpu.register .rsp + 8).toNat ≤ x := hx
  omega

/-- Whatever word is in `rdi`, the routine for numbers comes back to its caller with the stack and the
frame pointer as they were. It makes a single system call, which writes to standard output what the stack
machine prints. Apart from the frame pointer that it saves, it stores only in the 32 bytes below, and
nothing else in memory changes. -/
theorem printInt_writes_text (h : process.Contains Routines.printInt)
    (hrip : cpu.rip = process.label .printInt) (hrdi : cpu.register .rdi = value.toBitVec)
    (hlow : process.low + 40 ≤ (cpu.register .rsp).toNat)
    (hhigh : (cpu.register .rsp).toNat + 8 ≤ process.high) :
    ∃ events final, process.Run cpu (⟨cpu, .push .rbp⟩ :: events) final ∧
      cpu.CameBack (Bytes.ofText (Machine.printed value .int)) final ∧
      events.filterMap (Event.systemCall? process) =
        [(1, 1, some (Bytes.ofText (Machine.printed value .int)).toList)] ∧
      (∀ (machine : Machine) (rest : List Word), machine.stack = value :: rest → machine.out.Reliable →
        machine.perform (.print .int) = .running { machine with
          stack := rest, out := machine.out.append (Bytes.ofText (Machine.printed value .int)) }) ∧
      (∀ event ∈ events, event.StoresWithin ((cpu.register .rsp).toNat - 40)
        ((cpu.register .rsp).toNat - 8)) ∧
      ∀ x, x < (cpu.register .rsp).toNat - 40 ∨ (cpu.register .rsp).toNat ≤ x →
        final.memory x = cpu.memory x := by
  obtain ⟨events, final, hrun, hstores, hcalls, hback⟩ := run_printInt h hrip hrdi hlow hhigh
  refine ⟨events, final, hrun, hback, hcalls, ?_, hstores,
    fun x hx => memory_printInt hrun (by omega) hstores hx⟩
  intro machine rest hstack hreliable
  rw [Machine.perform, hstack]
  dsimp only
  rw [Sink.print_of_reliable hreliable]

/-- The smallest number, whose absolute value is no word with a sign, is printed in full. -/
theorem printInt_writes_text_smallest : ∃ (process : Process) (cpu : Cpu),
    process.Contains Routines.printInt ∧ cpu.rip = process.label .printInt ∧
    cpu.register .rdi = (-9223372036854775808 : Word).toBitVec ∧
    process.low + 40 ≤ (cpu.register .rsp).toNat ∧ (cpu.register .rsp).toNat + 8 ≤ process.high ∧
    process.Leads cpu fun final => final.out = Bytes.ofText "-9223372036854775808\n" ∧
      final.register .rsp = cpu.register .rsp + 8 := by
  obtain ⟨process, -, hlow, hhigh, hcontains⟩ := Process.exists_contains
    [.printInt, .printIntPositive, .printIntDigit, .printIntWrite] Routines.printInt
    (by decide +kernel) (by decide +kernel)
  let cpu : Cpu := ⟨process.label .printInt, fun r => if r = .rsp then 140737488355320
    else (-9223372036854775808 : Word).toBitVec, none, fun _ => 0, #[], #[]⟩
  have hrip : cpu.rip = process.label .printInt := rfl
  have hrdi : cpu.register .rdi = (-9223372036854775808 : Word).toBitVec := rfl
  have hrsp : (cpu.register .rsp).toNat = 140737488355320 := rfl
  obtain ⟨events, final, hrun, hback, -⟩ :=
    printInt_writes_text hcontains hrip hrdi (by omega) (by omega)
  have htext : Machine.printed (-9223372036854775808) .int = "-9223372036854775808\n" := by decide +kernel
  refine ⟨process, cpu, hcontains, hrip, hrdi, by omega, by omega, final, hrun.reaches, ?_, hback.rsp⟩
  rw [hback.out, htext]
  exact Array.empty_append

end

/-- A text behind the code is what a system call finds at its label. -/
theorem buffer_datum {mark : CodeLabel} {text : String}
    (h : process.Contains (Routines.datum mark text)) (cpu : Cpu) :
    cpu.buffer? process (process.label mark).toNat (Bytes.ofText text).toList.length =
      some (Bytes.ofText text).toList := by
  obtain ⟨first, last, hlabel, next, hhas, -⟩ := h
  rw [hlabel]
  exact hhas.data _ rfl cpu

namespace Routines

/-- The end of the routine for truth values. -/
def writeText : Code :=
  [.movLow .rax writeCall, .movLow .rdi standardOutput, .syscall, .ret]

end Routines

theorem leads_writeText (hstands : process.Stands (Code.script Routines.writeText) cpu.rip last)
    (hhigh : process.high < 18446744073709551616) {mark : CodeLabel} {text : String}
    (hdatum : process.Contains (Routines.datum mark text))
    (hrsi : cpu.register .rsi = process.label mark)
    (hrdx : (cpu.register .rdx).toNat = (Bytes.ofText text).toList.length) {back : BitVec 64}
    {ws : List (BitVec 64)} (hholds : cpu.Holds process (back :: ws)) :
    process.Leads cpu
      (Cpu.Printed process cpu (cpu.register .rbp) back ws (Bytes.ofText text)) := by
  obtain ⟨n₁, h₁, n₂, h₂, n₃, h₃, n₄, h₄, -⟩ := hstands
  have hbuffer : cpu.buffer? process (cpu.register .rsi).toNat (cpu.register .rdx).toNat =
      some (Bytes.ofText text).toList := by
    rw [hrsi, hrdx]
    exact buffer_datum hdatum cpu
  refine .step h₁ rfl (.step h₂ rfl (.step h₃ (Cpu.perform_syscall_out rfl rfl hbuffer) ?_))
  exact .ret h₄ (hholds.of_eq rfl rfl) hhigh fun hleft =>
    .now ⟨rfl, rfl, hleft.of_eq rfl rfl, rfl, rfl⟩

theorem prints_bool (hhigh : process.high < 18446744073709551616)
    (h : process.Contains Routines.printBool)
    (htrue : process.Contains (Routines.datum .trueText Routines.trueText))
    (hfalse : process.Contains (Routines.datum .falseText Routines.falseText)) :
    process.Prints .bool := by
  intro cpu value back ws hrip hrdi hholds hroom
  obtain ⟨first, last, hlabel, n₁, h₁, n₂, h₂, n₃, h₃, n₄, h₄, n₅, h₅, hfalseLabel, n₆, h₆, n₇, h₇,
    hwriteLabel, hwrite⟩ := h
  have hrip' : cpu.rip = first := hrip.trans hlabel
  rw [← hrip'] at h₁
  have htest := Flags.passes_test hrdi .zero
  by_cases hzero : value = 0
  · have hpasses : Test.holds value .zero = true := beq_iff_eq.mpr hzero
    have htext : Machine.printed value .bool = Routines.falseText := by
      rw [hzero]
      rfl
    have hsize : (Routines.falseText.utf8ByteSize.toUInt32.toBitVec.setWidth 64).toNat =
        (Bytes.ofText Routines.falseText).toList.length := by decide +kernel
    rw [← hfalseLabel] at h₆
    rw [htext]
    refine .step h₁ rfl (.taken h₂ rfl (htest.trans hpasses) (.step h₆ rfl (.step h₇ rfl ?_)))
    refine .mono (leads_writeText hwrite hhigh hfalse rfl hsize (hholds.of_eq rfl rfl)) ?_
    intro cpu' hprinted
    exact ⟨hprinted.rip, hprinted.rbp, hprinted.holds, hprinted.out, hprinted.err⟩
  · have hpasses : Test.holds value .zero = false := beq_eq_false_iff_ne.mpr hzero
    have htext : Machine.printed value .bool = Routines.trueText :=
      if_pos (bne_iff_ne.mpr hzero)
    have hsize : (Routines.trueText.utf8ByteSize.toUInt32.toBitVec.setWidth 64).toNat =
        (Bytes.ofText Routines.trueText).toList.length := by decide +kernel
    rw [← hwriteLabel] at hwrite
    rw [htext]
    refine .step h₁ rfl (.passed h₂ rfl (htest.trans hpasses) (.step h₃ rfl (.step h₄ rfl ?_)))
    refine .step h₅ rfl ?_
    refine .mono (leads_writeText hwrite hhigh htrue rfl hsize (hholds.of_eq rfl rfl)) ?_
    intro cpu' hprinted
    exact ⟨hprinted.rip, hprinted.rbp, hprinted.holds, hprinted.out, hprinted.err⟩

end X64

end GotoLang
