/-!
# Numbers as bytes
-/
namespace GotoLang

/-- The low bytes of a number in two's complement, the lowest first. -/
def littleEndian : Nat → Int → List UInt8
  | 0, _ => []
  | width + 1, value => (value.emod 256).toNat.toUInt8 :: littleEndian width (value.ediv 256)

end GotoLang
