import GotoLang.Numeral
import GotoLang.Program

/-!
# Programs as text

One line for each slot and one for each operation. With debug information, source labels stand on
lines of their own before the operation they mark, and each operation ends in its source line, in a
column of its own where the operation leaves room for it.
-/
namespace GotoLang

namespace Listing

def noteColumn : Nat := 32

/-- White space as Unicode defines it. -/
def isSpace (c : Char) : Bool :=
  let n := c.toNat
  (9 ≤ n && n ≤ 13) || n = 0x20 || n = 0x85 || n = 0xA0 || n = 0x1680 || (0x2000 ≤ n && n ≤ 0x200A)
    || n = 0x2028 || n = 0x2029 || n = 0x202F || n = 0x205F || n = 0x3000

def trimEnd (text : String) : String :=
  String.ofList (text.toList.reverse.dropWhile isSpace).reverse

/-- Drop white space on both sides. -/
def trim (text : String) : String :=
  trimEnd (String.ofList (text.toList.dropWhile isSpace))

def fill (width : Nat) (text : String) : String :=
  text ++ String.ofList (List.replicate (width - text.utf8ByteSize) ' ')

/-- A slot that has no variable shows a question mark. -/
def slotName (slots : Array Variable) (slot : Slot) : String :=
  match slots[slot.toNat]? with
  | some info => info.name
  | none => "?"

def op (slots : Array Variable) : Op → String
  | .push value => s!"push {value.toInt}"
  | .load slot => s!"load %{slot.toNat} {slotName slots slot}"
  | .store slot => s!"store %{slot.toNat} {slotName slots slot}"
  | .binary (.cmp cond) => s!"cmp.{cond.mnemonic}"
  | .jump target => s!"jmp {Numeral.addr target.toNat}"
  | .jumpIf target => s!"jmp.if {Numeral.addr target.toNat}"
  | other => other.mnemonic

def opLine (program : Program) (debug : Bool) (addr : Nat) (o : Op) : String :=
  let line := s!"{Numeral.addr addr}:  {op program.slots o}"
  match debug, program.lines[addr]? with
  | true, some source => trimEnd s!"{fill noteColumn line}; line {source}"
  | _, _ => trimEnd line

def markLines (program : Program) (debug : Bool) (addr : Nat) : List String :=
  if debug then
    (program.marks.toList.filter (·.addr.toNat = addr)).map fun mark => s!"{mark.name}:"
  else []

def slotLine (slot : Nat) (info : Variable) : String :=
  s!"slot %{slot} {info.name} : {info.ty.text}"

def lines (program : Program) (debug : Bool) : List String :=
  ["; gotoc IR", s!"; ops: {program.ops.size}, slots: {program.slots.size}"]
    ++ program.slots.toList.zipIdx.map (fun (info, slot) => slotLine slot info)
    ++ [""]
    ++ program.ops.toList.zipIdx.flatMap fun (o, addr) =>
      markLines program debug addr ++ [opLine program debug addr o]

end Listing

def Program.listing (program : Program) (debug : Bool) : String :=
  String.join ((Listing.lines program debug).map (· ++ "\n"))

end GotoLang
