import GotoLang.Machine
import GotoLang.X64.Assembler
import GotoLang.X64.CodeLabel

/-!
# Code that every program may need

The entry point of a process, the end of a program that divided by zero, and the routines that print.
They use the system calls `write` and `exit` and nothing else. Routines take their argument in `rdi`.
-/
namespace GotoLang.X64

abbrev Code := List (Instr CodeLabel)

abbrev Script := List (Directive CodeLabel)

def Code.script (code : Code) : Script :=
  code.map .emit

namespace Routines

def writeCall : UInt32 := 1

def exitCall : UInt32 := 60

def standardOutput : UInt32 := 1

def standardError : UInt32 := 2

/-- Call the program and end the process with the status it returns. -/
def start : Script :=
  .place .start :: Code.script [
    .call .main,
    .mov .rdi .rax,
    .movLow .rax exitCall,
    .syscall]

/-- Write a message and leave the program with the status of a division by zero. -/
def trap : Script :=
  .place .trap :: Code.script [
    .movLow .rax writeCall,
    .movLow .rdi standardError,
    .leaLabel .rsi .trapText,
    .movLow .rdx Machine.trapMessage.utf8ByteSize.toUInt32,
    .syscall,
    .movLow .rax Machine.trapStatus.toUInt64.toUInt32,
    .jump .leave]

/-- Write a number and a line end. The digits are put below the frame pointer from the last one on; a
negative number is negated first, and read without sign it is then the absolute value. -/
def printInt : Script :=
  .place .printInt :: Code.script [
    .push .rbp,
    .mov .rbp .rsp,
    .reserve 32,
    .leaFrame .rsi 1,
    .movLow .rdx 10,
    .storeByte,
    .mov .rax .rdi,
    .alu .test .rax .rax,
    .jumpIf .notNegative .printIntPositive,
    .neg .rax] ++
  .place .printIntPositive :: Code.script [
    .movLow .rcx 10] ++
  .place .printIntDigit :: Code.script [
    .clear .rdx,
    .div .rcx,
    .addByte .rdx 48,
    .dec .rsi,
    .storeByte,
    .alu .test .rax .rax,
    .jumpIf .notZero .printIntDigit,
    .alu .test .rdi .rdi,
    .jumpIf .notNegative .printIntWrite,
    .dec .rsi,
    .movLow .rdx 45,
    .storeByte] ++
  .place .printIntWrite :: Code.script [
    .mov .rdx .rbp,
    .alu .sub .rdx .rsi,
    .movLow .rax writeCall,
    .movLow .rdi standardOutput,
    .syscall,
    .mov .rsp .rbp,
    .pop .rbp,
    .ret]

def trueText : String := "true\n"

def falseText : String := "false\n"

def printBool : Script :=
  .place .printBool :: Code.script [
    .alu .test .rdi .rdi,
    .jumpIf .zero .printBoolFalse,
    .leaLabel .rsi .trueText,
    .movLow .rdx trueText.utf8ByteSize.toUInt32,
    .jump .printBoolWrite] ++
  .place .printBoolFalse :: Code.script [
    .leaLabel .rsi .falseText,
    .movLow .rdx falseText.utf8ByteSize.toUInt32] ++
  .place .printBoolWrite :: Code.script [
    .movLow .rax writeCall,
    .movLow .rdi standardOutput,
    .syscall,
    .ret]

def datum (mark : CodeLabel) (text : String) : Script :=
  [.place mark, .emit (.data (Bytes.ofText text).toList)]

end Routines

end GotoLang.X64
