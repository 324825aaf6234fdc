/-!
# Registers
-/
namespace GotoLang.X64

/-- The general registers that have a number below eight. -/
inductive Register where
  | rax | rcx | rdx | rbx | rsp | rbp | rsi | rdi
deriving DecidableEq

namespace Register

def code : Register → UInt8
  | rax => 0
  | rcx => 1
  | rdx => 2
  | rbx => 3
  | rsp => 4
  | rbp => 5
  | rsi => 6
  | rdi => 7

private def stem : Register → String
  | rax => "ax"
  | rcx => "cx"
  | rdx => "dx"
  | rbx => "bx"
  | rsp => "sp"
  | rbp => "bp"
  | rsi => "si"
  | rdi => "di"

def text (r : Register) : String :=
  s!"%r{r.stem}"

def lowText (r : Register) : String :=
  s!"%e{r.stem}"

end Register

end GotoLang.X64
