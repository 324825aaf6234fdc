/-!
# Labels of generated code
-/
namespace GotoLang.X64

/-- The program returns its status where it leaves. A division goes on at its own label unless the divisor is minus
one. -/
inductive CodeLabel where
  | start
  | main
  | leave
  | op (addr : Nat)
  | divide (addr : Nat)
  | trap
  | printInt
  | printIntPositive
  | printIntDigit
  | printIntWrite
  | printBool
  | printBoolFalse
  | printBoolWrite
  | trapText
  | trueText
  | falseText
deriving DecidableEq

def CodeLabel.name : CodeLabel → String
  | start => "_start"
  | main => "main"
  | leave => ".Lreturn"
  | op addr => s!".L{addr}"
  | divide addr => s!".Ldiv{addr}"
  | trap => ".Ldiv_trap"
  | printInt => "__gotoc_print_int"
  | printIntPositive => ".Lprint_int_positive"
  | printIntDigit => ".Lprint_int_digit"
  | printIntWrite => ".Lprint_int_write"
  | printBool => "__gotoc_print_bool"
  | printBoolFalse => ".Lprint_bool_false"
  | printBoolWrite => ".Lprint_bool_write"
  | trapText => ".Ltrap_message"
  | trueText => ".Ltrue"
  | falseText => ".Lfalse"

end GotoLang.X64
