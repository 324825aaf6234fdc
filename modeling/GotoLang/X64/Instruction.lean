import GotoLang.LittleEndian
import GotoLang.Numeral
import GotoLang.Operator
import GotoLang.X64.Register

/-!
# Machine instructions

The instructions that generated code is made of, with their bytes and their text. What a branch refers
to is a parameter: a label while code is generated, a position once it is laid out.

An instruction that writes the low half of a register clears the upper half.
-/
namespace GotoLang.X64

/-- Two-operand instructions that share one encoding. `cmp` and `test` only set the flags. -/
inductive Alu where
  | add | sub | and | or | cmp | test
deriving DecidableEq

namespace Alu

def opcode : Alu → UInt8
  | add => 0x01
  | sub => 0x29
  | and => 0x21
  | or => 0x09
  | cmp => 0x39
  | test => 0x85

def mnemonic : Alu → String
  | add => "addq"
  | sub => "subq"
  | and => "andq"
  | or => "orq"
  | cmp => "cmpq"
  | test => "testq"

end Alu

inductive Test where
  | zero | notZero | notNegative
deriving DecidableEq

namespace Test

def code : Test → UInt8
  | zero => 0x4
  | notZero => 0x5
  | notNegative => 0x9

def mnemonic : Test → String
  | zero => "je"
  | notZero => "jne"
  | notNegative => "jns"

end Test

def condCode : Cond → UInt8
  | .eq => 0x4
  | .ne => 0x5
  | .lt => 0xC
  | .le => 0xE
  | .gt => 0xF
  | .ge => 0xD

/-- `load`, `store` and `leaFrame` refer to so many bytes below the frame pointer, `storeByte` puts `dl` where `rsi`
points, and `reserve` moves the stack pointer down. `flip`, `setCond` and `widen` work on `rax`, the divisions and
`cqo` on `rdx` and `rax`. `undefined` stands where control never gets, and `data` is not executed. -/
inductive Instr (label : Type) where
  | mov (dst src : Register)
  | movWord (dst : Register) (value : Word)
  | movLow (dst : Register) (value : UInt32)
  | load (dst : Register) (below : Nat)
  | store (below : Nat) (src : Register)
  | storeByte
  | leaFrame (dst : Register) (below : Nat)
  | leaLabel (dst : Register) (target : label)
  | alu (op : Alu) (dst src : Register)
  | imul (dst src : Register)
  | clear (dst : Register)
  | reserve (size : Nat)
  | cmpByte (reg : Register) (value : Int8)
  | addByte (dst : Register) (value : Int8)
  | flip
  | neg (dst : Register)
  | dec (dst : Register)
  | div (src : Register)
  | idiv (src : Register)
  | cqo
  | setCond (cond : Cond)
  | widen
  | push (src : Register)
  | pop (dst : Register)
  | jump (target : label)
  | jumpIf (test : Test) (target : label)
  | call (target : label)
  | ret
  | syscall
  | undefined
  | nop
  | data (bytes : List UInt8)
deriving DecidableEq

namespace Instr

variable {label other : Type}

def target? : Instr label → Option label
  | leaLabel _ target | jump target | jumpIf _ target | call target => some target
  | _ => none

def map (f : label → other) : Instr label → Instr other
  | mov dst src => .mov dst src
  | movWord dst value => .movWord dst value
  | movLow dst value => .movLow dst value
  | load dst below => .load dst below
  | store below src => .store below src
  | storeByte => .storeByte
  | leaFrame dst below => .leaFrame dst below
  | leaLabel dst target => .leaLabel dst (f target)
  | alu op dst src => .alu op dst src
  | imul dst src => .imul dst src
  | clear dst => .clear dst
  | reserve size => .reserve size
  | cmpByte reg value => .cmpByte reg value
  | addByte dst value => .addByte dst value
  | flip => .flip
  | neg dst => .neg dst
  | dec dst => .dec dst
  | div src => .div src
  | idiv src => .idiv src
  | cqo => .cqo
  | setCond cond => .setCond cond
  | widen => .widen
  | push src => .push src
  | pop dst => .pop dst
  | jump target => .jump (f target)
  | jumpIf test target => .jumpIf test (f target)
  | call target => .call (f target)
  | ret => .ret
  | syscall => .syscall
  | undefined => .undefined
  | nop => .nop
  | data bytes => .data bytes

def wide : UInt8 := 0x48

/-- The byte that names two registers, or a register and an extension of the opcode. -/
def operands (mode reg rm : UInt8) : UInt8 :=
  mode * 64 + reg * 8 + rm

def registers (reg rm : UInt8) : UInt8 :=
  operands 3 reg rm

/-- A place below the frame pointer; near ones take one byte. -/
def frameOperand (reg : Register) (below : Nat) : List UInt8 :=
  if below ≤ 128 then operands 1 reg.code Register.rbp.code :: littleEndian 1 (-below)
  else operands 2 reg.code Register.rbp.code :: littleEndian 4 (-below)

/-- The bytes of an instruction. A branch has a short and a near form, and holds the distance from its
end to its target. -/
def bytes (short : Bool) (distance : Int) : Instr label → List UInt8
  | mov dst src => [wide, 0x89, registers src.code dst.code]
  | movWord dst value => [wide, 0xB8 + dst.code] ++ littleEndian 8 value.toInt
  | movLow dst value => [0xB8 + dst.code] ++ littleEndian 4 value.toNat
  | load dst below => [wide, 0x8B] ++ frameOperand dst below
  | store below src => [wide, 0x89] ++ frameOperand src below
  | storeByte => [0x88, operands 0 Register.rdx.code Register.rsi.code]
  | leaFrame dst below => [wide, 0x8D] ++ frameOperand dst below
  | leaLabel dst _ => [wide, 0x8D, operands 0 dst.code 5] ++ littleEndian 4 distance
  | alu op dst src => [wide, op.opcode, registers src.code dst.code]
  | imul dst src => [wide, 0x0F, 0xAF, registers dst.code src.code]
  | clear dst => [0x31, registers dst.code dst.code]
  | reserve size =>
    if size ≤ 127 then [wide, 0x83, registers 5 Register.rsp.code] ++ littleEndian 1 size
    else [wide, 0x81, registers 5 Register.rsp.code] ++ littleEndian 4 size
  | cmpByte reg value => [wide, 0x83, registers 7 reg.code] ++ littleEndian 1 value.toInt
  | addByte dst value => [0x83, registers 0 dst.code] ++ littleEndian 1 value.toInt
  | flip => [wide, 0x35] ++ littleEndian 4 1
  | neg dst => [wide, 0xF7, registers 3 dst.code]
  | dec dst => [wide, 0xFF, registers 1 dst.code]
  | div src => [wide, 0xF7, registers 6 src.code]
  | idiv src => [wide, 0xF7, registers 7 src.code]
  | cqo => [wide, 0x99]
  | setCond cond => [0x0F, 0x90 + condCode cond, registers 0 0]
  | widen => [0x0F, 0xB6, registers 0 0]
  | push src => [0x50 + src.code]
  | pop dst => [0x58 + dst.code]
  | jump _ => if short then 0xEB :: littleEndian 1 distance else 0xE9 :: littleEndian 4 distance
  | jumpIf test _ =>
    if short then (0x70 + test.code) :: littleEndian 1 distance
    else 0x0F :: (0x80 + test.code) :: littleEndian 4 distance
  | call _ => 0xE8 :: littleEndian 4 distance
  | ret => [0xC3]
  | syscall => [0x0F, 0x05]
  | undefined => [0x0F, 0x0B]
  | nop => [0x90]
  | data bytes => bytes

/-- The number of bytes, which does not depend on the distance. -/
def size (short : Bool) (instr : Instr label) : Nat :=
  (instr.bytes short 0).length

def immediate (value : Int) : String :=
  s!"${Numeral.operand (value.emod 18446744073709551616).toNat}"

def frameText (below : Nat) : String :=
  s!"-{Numeral.operand below}(%rbp)"

def columns (mnemonic operands : String) : String :=
  mnemonic ++ String.ofList (List.replicate (8 - mnemonic.length) ' ') ++ operands

/-- An instruction in assembly text, where the source stands before the destination. -/
def text (name : label → String) : Instr label → String
  | mov dst src => columns "movq" s!"{src.text},{dst.text}"
  | movWord dst value => columns "movabsq" s!"{immediate value.toInt},{dst.text}"
  | movLow dst value => columns "movl" s!"{immediate value.toNat},{dst.lowText}"
  | load dst below => columns "movq" s!"{frameText below},{dst.text}"
  | store below src => columns "movq" s!"{src.text},{frameText below}"
  | storeByte => columns "movb" "%dl,(%rsi)"
  | leaFrame dst below => columns "leaq" s!"{frameText below},{dst.text}"
  | leaLabel dst target => columns "leaq" s!"{name target}(%rip),{dst.text}"
  | alu op dst src => columns op.mnemonic s!"{src.text},{dst.text}"
  | imul dst src => columns "imulq" s!"{src.text},{dst.text}"
  | clear dst => columns "xorl" s!"{dst.lowText},{dst.lowText}"
  | reserve size => columns "subq" s!"{immediate size},%rsp"
  | cmpByte reg value => columns "cmpq" s!"{immediate value.toInt},{reg.text}"
  | addByte dst value => columns "addl" s!"{immediate value.toInt},{dst.lowText}"
  | flip => columns "xorq" "$1,%rax"
  | neg dst => columns "negq" dst.text
  | dec dst => columns "decq" dst.text
  | div src => columns "divq" src.text
  | idiv src => columns "idivq" src.text
  | cqo => "cqto"
  | setCond cond => columns s!"set{condSuffix cond}b" "%al"
  | widen => columns "movzbl" "%al,%eax"
  | push src => columns "pushq" src.text
  | pop dst => columns "popq" dst.text
  | jump target => columns "jmp" (name target)
  | jumpIf test target => columns test.mnemonic (name target)
  | call target => columns "callq" (name target)
  | ret => "retq"
  | syscall => "syscall"
  | undefined => "ud2"
  | nop => "nop"
  | data bytes => ".byte\t" ++ String.intercalate ", " (bytes.map fun b => s!"0x{Numeral.byte b}")
where
  condSuffix : Cond → String
    | .eq => "e"
    | .ne => "ne"
    | .lt => "l"
    | .le => "le"
    | .gt => "g"
    | .ge => "ge"

end Instr

end GotoLang.X64
