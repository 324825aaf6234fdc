import GotoLang.Config
import GotoLang.Lowering
import GotoLang.Machine
import GotoLang.SyntaxError
import GotoLang.X64.CodeGeneration

/-!
# Why a compilation fails
-/
namespace GotoLang

inductive CompileError where
  | config (fault : ConfigFault)
  | io (path : String) (fault : IoFault)
  | reading (error : SyntaxError)
  | lowering (error : LoweringError)
  | program (fault : ProgramFault)
  | encoding (error : X64.EncodingError)
  | link (reason : String)
  | machine (fault : MachineFault)
  | unfinished (steps : Nat)
deriving DecidableEq

namespace CompileError

def ofCode : X64.CodeError → CompileError
  | .program fault => program fault
  | .encoding error => encoding error

def ioMessage (path : String) (fault : IoFault) : String :=
  s!"I/O error on {path}: {fault.text}"

def codeMessage (reason : String) : String :=
  s!"Code generation failed: {reason}"

def machineMessage : MachineFault → String
  | .pastEnd pc => codeMessage s!"execution ran past the end of the program at {Numeral.addr pc}"
  | .stackUnderflow => codeMessage "evaluation stack underflow"
  | .unknownSlot slot => codeMessage s!"unknown slot %{slot.toNat}"
  | .outFailed fault => ioMessage "<stdout>" fault
  | .errFailed fault => ioMessage "<stderr>" fault

def message : CompileError → String
  | config fault => s!"Configuration error: {fault.reason}"
  | io path fault => ioMessage path fault
  | reading error => error.message
  | lowering error => error.message
  | program fault => codeMessage fault.reason
  | encoding error => s!"Instruction encoding failed: {error.message}"
  | link reason => s!"Link failed: {reason}"
  | machine fault => machineMessage fault
  | unfinished steps => codeMessage s!"execution did not end within {steps} steps"

/-- The exit code of a failed compilation. -/
def exitCode : CompileError → Nat
  | config _ => 2
  | _ => 1

end CompileError

end GotoLang
