import GotoLang.X64.MachineCode
import GotoLang.Proofs.Execution

/-!
# The processor

What the instructions of generated code do to the registers, the status flags and the memory of a
process on an x86-64 processor under Linux. The code is laid out from a base address on. A call may use
the part of the stack between two bounds and nothing else; what it reads or writes elsewhere, the texts
behind the code apart, is a fault, as are an undefined instruction, a division whose quotient has no
room, and a test of flags that the last instruction left undefined. Of the system calls there are
`write`, which writes everything it is given, and `exit`.
-/
namespace GotoLang.X64

/-- The status flags that are tested. -/
structure Flags where
  zero : Bool
  sign : Bool
  overflow : Bool
deriving DecidableEq

namespace Flags

/-- The flags that tell of a result. -/
def ofResult {w : Nat} (result : BitVec w) (overflow : Bool) : Flags :=
  ⟨result == 0, result.msb, overflow⟩

/-- The flags of a signed comparison. -/
def holds (flags : Flags) : Cond → Bool
  | .eq => flags.zero
  | .ne => !flags.zero
  | .lt => flags.sign != flags.overflow
  | .le => flags.zero || flags.sign != flags.overflow
  | .gt => !(flags.zero || flags.sign != flags.overflow)
  | .ge => flags.sign == flags.overflow

def passes (flags : Flags) : Test → Bool
  | .zero => flags.zero
  | .notZero => !flags.zero
  | .notNegative => !flags.sign

end Flags

/-- The bytes of a memory by their addresses. -/
abbrev Memory := Nat → UInt8

namespace Memory

def read (memory : Memory) (addr count : Nat) : List UInt8 :=
  (List.range count).map fun i => memory (addr + i)

def write (memory : Memory) (addr : Nat) (bytes : List UInt8) : Memory := fun x =>
  if addr ≤ x then bytes[x - addr]?.getD (memory x) else memory x

/-- The number that bytes stand for, the lowest first. -/
def decode (bytes : List UInt8) : Nat :=
  bytes.foldr (fun byte value => byte.toNat + 256 * value) 0

def word (memory : Memory) (addr : Nat) : BitVec 64 :=
  .ofNat 64 (decode (memory.read addr 8))

end Memory

/-- Code in a process, and the part of the stack that it may use. -/
structure Process where
  code : Assembled CodeLabel
  base : Nat
  /-- What is in memory where the code is. -/
  image : Memory
  low : Nat
  high : Nat

structure Cpu where
  rip : BitVec 64
  register : Register → BitVec 64
  /-- Nothing where they are undefined. -/
  flags : Option Flags
  memory : Memory
  out : Bytes
  err : Bytes

inductive Halt where
  /-- It went to where no instruction of the code is. -/
  | left (cpu : Cpu)
  | exited (status : BitVec 64) (out err : Bytes)
  | fault

namespace Process

def address (process : Process) (offset : Nat) : BitVec 64 :=
  .ofNat 64 (process.base + offset)

/-- The instruction at an address, with addresses for its labels, and the address behind it. -/
def fetch? (process : Process) (rip : BitVec 64) : Option (Instr (BitVec 64) × BitVec 64) :=
  (process.code.find? fun placed => process.address placed.offset == rip).map fun placed =>
    (placed.instr.map fun _ => process.address (placed.target.getD 0),
      process.address (placed.offset + placed.size))

def onStack (process : Process) (addr count : Nat) : Bool :=
  process.low ≤ addr && addr + count ≤ process.high

def inImage (process : Process) (addr count : Nat) : Bool :=
  process.base ≤ addr && addr + count ≤ process.base + process.code.bytes.size

end Process

namespace Cpu

def goto (cpu : Cpu) (rip : BitVec 64) : Cpu :=
  { cpu with rip }

def set (cpu : Cpu) (dst : Register) (value : BitVec 64) : Cpu :=
  { cpu with register := fun r => if r = dst then value else cpu.register r }

def setFlags (cpu : Cpu) (flags : Option Flags) : Cpu :=
  { cpu with flags }

/-- A result with the flags that tell of it. -/
def result (cpu : Cpu) (dst : Register) (value : BitVec 64) (overflow : Bool) : Cpu :=
  (cpu.set dst value).setFlags (some (.ofResult value overflow))

/-- The flags of a comparison are those of a difference that is not kept. -/
def compare (cpu : Cpu) (lhs rhs : BitVec 64) : Cpu :=
  cpu.setFlags (some (.ofResult (lhs - rhs) (lhs.ssubOverflow rhs)))

def alu (cpu : Cpu) (dst : Register) (lhs rhs : BitVec 64) : Alu → Cpu
  | .add => cpu.result dst (lhs + rhs) (lhs.saddOverflow rhs)
  | .sub => cpu.result dst (lhs - rhs) (lhs.ssubOverflow rhs)
  | .and => cpu.result dst (lhs &&& rhs) false
  | .or => cpu.result dst (lhs ||| rhs) false
  | .cmp => cpu.compare lhs rhs
  | .test => cpu.setFlags (some (.ofResult (lhs &&& rhs) false))

def fetch (cpu : Cpu) (process : Process) (addr : BitVec 64)
    (use : BitVec 64 → Transition Cpu Halt) : Transition Cpu Halt :=
  if process.onStack addr.toNat 8 then use (cpu.memory.word addr.toNat) else .stop .fault

def store (cpu : Cpu) (process : Process) (addr : BitVec 64) (bytes : List UInt8) :
    Transition Cpu Halt :=
  if process.onStack addr.toNat bytes.length then
    .next { cpu with memory := cpu.memory.write addr.toNat bytes }
  else .stop .fault

def push (cpu : Cpu) (process : Process) (value : BitVec 64) : Transition Cpu Halt :=
  let top := cpu.register .rsp - 8
  (cpu.set .rsp top).store process top (littleEndian 8 value.toNat)

def pop (cpu : Cpu) (process : Process) (use : BitVec 64 → Cpu → Transition Cpu Halt) :
    Transition Cpu Halt :=
  cpu.fetch process (cpu.register .rsp) fun value =>
    use value (cpu.set .rsp (cpu.register .rsp + 8))

/-- Both halves of a division, if the quotient has room. -/
def divided (cpu : Cpu) (quotient remainder : BitVec 64) : Cpu :=
  ((cpu.set .rax quotient).set .rdx remainder).setFlags none

/-- Divide without sign the number that `rdx` and `rax` make up. -/
def divide (cpu : Cpu) (divisor : Nat) : Transition Cpu Halt :=
  let dividend := (cpu.register .rdx).toNat * 18446744073709551616 + (cpu.register .rax).toNat
  if divisor = 0 ∨ 18446744073709551616 ≤ dividend / divisor then .stop .fault
  else .next (cpu.divided (.ofNat 64 (dividend / divisor)) (.ofNat 64 (dividend % divisor)))

/-- Divide with sign, toward zero. -/
def divideSigned (cpu : Cpu) (divisor : Int) : Transition Cpu Halt :=
  let dividend := (cpu.register .rdx).toInt * 18446744073709551616 + (cpu.register .rax).toNat
  let quotient := dividend.tdiv divisor
  if divisor = 0 ∨ quotient < -9223372036854775808 ∨ 9223372036854775808 ≤ quotient then .stop .fault
  else .next (cpu.divided (.ofInt 64 quotient) (.ofInt 64 (dividend.tmod divisor)))

/-- The bytes that a system call is given. -/
def buffer? (cpu : Cpu) (process : Process) (addr count : Nat) : Option (List UInt8) :=
  if process.onStack addr count then some (cpu.memory.read addr count)
  else if process.inImage addr count then some (process.image.read addr count)
  else none

/-- What a system call leaves: its result, and the address behind it in `rcx`. -/
def returned (cpu : Cpu) (result : BitVec 64) : Cpu :=
  ((cpu.set .rax result).set .rcx cpu.rip).setFlags none

def systemCall (cpu : Cpu) (process : Process) : Transition Cpu Halt :=
  let count := cpu.register .rdx
  match (cpu.register .rax).toNat, (cpu.register .rdi).toNat,
    cpu.buffer? process (cpu.register .rsi).toNat count.toNat with
  | 1, 1, some bytes => .next { cpu.returned count with out := cpu.out ++ bytes.toArray }
  | 1, 2, some bytes => .next { cpu.returned count with err := cpu.err ++ bytes.toArray }
  | 60, _, _ => .stop (.exited (cpu.register .rdi) cpu.out cpu.err)
  | _, _, _ => .stop .fault

/-- Carry out one instruction; the address of the next one is already that behind it. -/
def perform (cpu : Cpu) (process : Process) : Instr (BitVec 64) → Transition Cpu Halt
  | .mov dst src => .next (cpu.set dst (cpu.register src))
  | .movWord dst value => .next (cpu.set dst value.toBitVec)
  | .movLow dst value => .next (cpu.set dst (value.toBitVec.setWidth 64))
  | .load dst below =>
    cpu.fetch process (cpu.register .rbp - .ofNat 64 below) fun value => .next (cpu.set dst value)
  | .store below src =>
    cpu.store process (cpu.register .rbp - .ofNat 64 below) (littleEndian 8 (cpu.register src).toNat)
  | .storeByte => cpu.store process (cpu.register .rsi) (littleEndian 1 (cpu.register .rdx).toNat)
  | .leaFrame dst below => .next (cpu.set dst (cpu.register .rbp - .ofNat 64 below))
  | .leaLabel dst target => .next (cpu.set dst target)
  | .alu op dst src => .next (cpu.alu dst (cpu.register dst) (cpu.register src) op)
  | .imul dst src => .next ((cpu.set dst (cpu.register dst * cpu.register src)).setFlags none)
  | .clear dst => .next (cpu.result dst 0 false)
  | .reserve size =>
    let size : BitVec 64 := .ofNat 64 size
    .next (cpu.result .rsp (cpu.register .rsp - size) ((cpu.register .rsp).ssubOverflow size))
  | .cmpByte reg value => .next (cpu.compare (cpu.register reg) (value.toBitVec.signExtend 64))
  | .addByte dst value =>
    let lhs := (cpu.register dst).setWidth 32
    let rhs := value.toBitVec.signExtend 32
    .next ((cpu.set dst ((lhs + rhs).setWidth 64)).setFlags
      (some (.ofResult (lhs + rhs) (lhs.saddOverflow rhs))))
  | .flip => .next (cpu.result .rax (cpu.register .rax ^^^ 1) false)
  | .neg dst => .next (cpu.result dst (-cpu.register dst) (cpu.register dst).negOverflow)
  | .dec dst => .next (cpu.result dst (cpu.register dst - 1) ((cpu.register dst).ssubOverflow 1))
  | .div src => cpu.divide (cpu.register src).toNat
  | .idiv src => cpu.divideSigned (cpu.register src).toInt
  | .cqo => .next (cpu.set .rdx (if (cpu.register .rax).msb then -1 else 0))
  | .setCond cond =>
    match cpu.flags with
    | some flags =>
      let low : BitVec 8 := if flags.holds cond then 1 else 0
      .next (cpu.set .rax ((cpu.register .rax).extractLsb' 8 56 ++ low))
    | none => .stop .fault
  | .widen => .next (cpu.set .rax (((cpu.register .rax).setWidth 8).setWidth 64))
  | .push src => cpu.push process (cpu.register src)
  | .pop dst => cpu.pop process fun value cpu => .next (cpu.set dst value)
  | .jump target => .next (cpu.goto target)
  | .jumpIf test target =>
    match cpu.flags with
    | some flags => .next (if flags.passes test then cpu.goto target else cpu)
    | none => .stop .fault
  | .call target =>
    match cpu.push process cpu.rip with
    | .next cpu => .next (cpu.goto target)
    | .stop halt => .stop halt
  | .ret => cpu.pop process fun value cpu => .next (cpu.goto value)
  | .syscall => cpu.systemCall process
  | .undefined => .stop .fault
  | .nop => .next cpu
  | .data _ => .stop .fault

def step (process : Process) (cpu : Cpu) : Transition Cpu Halt :=
  match process.fetch? cpu.rip with
  | none => .stop (.left cpu)
  | some (instr, next) => (cpu.goto next).perform process instr

end Cpu

end GotoLang.X64
