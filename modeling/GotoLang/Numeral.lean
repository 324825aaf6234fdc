/-!
# Written numbers
-/
namespace GotoLang

namespace Numeral

/-- Decimal digits, filled up with zeros on the left to a width. -/
def padded (width n : Nat) : String :=
  let digits := toString n
  String.ofList (List.replicate (width - digits.length) '0') ++ digits

def addr (n : Nat) : String :=
  padded 4 n

def hex (n : Nat) : String :=
  String.ofList ((Nat.toDigits 16 n).map Char.toUpper)

/-- Numbers of machine instructions are decimal up to nine and hexadecimal above. -/
def operand (n : Nat) : String :=
  if n < 10 then toString n else s!"0x{hex n}"

def byte (b : UInt8) : String :=
  String.ofList [Nat.digitChar (b.toNat / 16), Nat.digitChar (b.toNat % 16)]

end Numeral

end GotoLang
