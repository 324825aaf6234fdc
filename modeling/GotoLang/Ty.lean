/-!
# Types of values
-/
namespace GotoLang

inductive Ty where
  | int | bool
deriving DecidableEq

def Ty.text : Ty → String
  | int => "int"
  | bool => "bool"

end GotoLang
