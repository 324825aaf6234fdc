import GotoLang.Elf.StringTable
import GotoLang.LittleEndian
import GotoLang.X64.MachineCode

/-!
# Relocatable object files

Code and data form one section. The others are an empty one that asks for a stack without execution
rights, the symbols, and two string tables. Local symbols stand before global ones.
-/
namespace GotoLang.Elf

def fields (values : List (Nat × Nat)) : List UInt8 :=
  values.flatMap fun (width, value) => littleEndian width value

/-- Zeros that bring a position to a multiple of eight. -/
def padding (position : Nat) : List UInt8 :=
  List.replicate ((8 - position % 8) % 8) 0

inductive Symbol.Kind where
  | file
  | label
  | function
  | globalFunction
deriving DecidableEq

structure Symbol where
  name : String
  kind : Symbol.Kind
  value : Nat := 0
  size : Nat := 0
deriving DecidableEq

namespace Symbol

def isLocal (symbol : Symbol) : Bool :=
  symbol.kind ≠ .globalFunction

/-- Binding and type. -/
def info : Kind → Nat
  | .file => 0x04
  | .label => 0x00
  | .function => 0x02
  | .globalFunction => 0x12

/-- Visibility: global functions are hidden outside a linked file. -/
def visibility : Kind → Nat
  | .globalFunction => 2
  | _ => 0

def sectionIndex : Kind → Nat
  | .file => 0xFFF1
  | _ => 1

def width : Nat := 24

def bytes (strings : StringTable) (symbol : Symbol) : List UInt8 :=
  fields [(4, strings.offset symbol.name), (1, info symbol.kind), (1, visibility symbol.kind),
    (2, sectionIndex symbol.kind), (8, symbol.value), (8, symbol.size)]

def null : List UInt8 :=
  List.replicate width 0

end Symbol

structure SectionHeader where
  name : String := ""
  type : Nat := 0
  flags : Nat := 0
  offset : Nat := 0
  size : Nat := 0
  link : Nat := 0
  info : Nat := 0
  align : Nat := 0
  entrySize : Nat := 0
deriving DecidableEq

namespace SectionHeader

def width : Nat := 64

def bytes (strings : StringTable) (header : SectionHeader) : List UInt8 :=
  fields [(4, strings.offset header.name), (4, header.type), (8, header.flags), (8, 0),
    (8, header.offset), (8, header.size), (4, header.link), (4, header.info), (8, header.align),
    (8, header.entrySize)]

end SectionHeader

def headerSize : Nat := 64

def identification : List UInt8 :=
  [0x7F, 0x45, 0x4C, 0x46, 2, 1, 1]

/-- Whether some bytes can be an object file. -/
def isObject (bytes : Bytes) : Bool :=
  identification.isPrefixOf bytes.toList

/-- The header of a file that has its section headers at an offset. -/
def header (sectionHeaders sections stringSection : Nat) : List UInt8 :=
  identification ++ List.replicate 9 0 ++
  fields [(2, 1), (2, 62), (4, 1), (8, 0), (8, 0), (8, sectionHeaders), (4, 0), (2, headerSize),
    (2, 0), (2, 0), (2, SectionHeader.width), (2, sections), (2, stringSection)]

namespace Section

def text : String := ".text"
def stackNote : String := ".note.GNU-stack"
def symbols : String := ".symtab"
def strings : String := ".strtab"
def headerStrings : String := ".shstrtab"

end Section

def object (code : List UInt8) (symbols : List Symbol) : Bytes :=
  let locals := symbols.filter Symbol.isLocal
  let ordered := locals ++ symbols.filter (!·.isLocal)
  let strings := StringTable.ofStrings (ordered.map Symbol.name)
  let headerStrings := StringTable.ofStrings
    [Section.text, Section.stackNote, Section.symbols, Section.strings, Section.headerStrings]
  let codeEnd := headerSize + code.length
  let gap := padding codeEnd
  let symbolStart := codeEnd + gap.length
  let symbolBytes := Symbol.null ++ ordered.flatMap (Symbol.bytes strings)
  let stringStart := symbolStart + symbolBytes.length
  let headerStringStart := stringStart + strings.bytes.length
  let sectionEnd := headerStringStart + headerStrings.bytes.length
  let lastGap := padding sectionEnd
  let headers : List SectionHeader := [
    {},
    { name := Section.text, type := 1, flags := 6, offset := headerSize, size := code.length,
      align := 16 },
    { name := Section.stackNote, type := 1, offset := codeEnd, align := 1 },
    { name := Section.symbols, type := 2, offset := symbolStart, size := symbolBytes.length,
      link := 4, info := locals.length + 1, align := 8, entrySize := Symbol.width },
    { name := Section.strings, type := 3, offset := stringStart, size := strings.bytes.length,
      align := 1 },
    { name := Section.headerStrings, type := 3, offset := headerStringStart,
      size := headerStrings.bytes.length, align := 1 }]
  (header (sectionEnd + lastGap.length) headers.length 5 ++ code ++ gap ++ symbolBytes ++
    strings.bytes ++ headerStrings.bytes ++ lastGap ++
    headers.flatMap (SectionHeader.bytes headerStrings)).toArray

end Elf

namespace X64.MachineCode

/-- What the names of symbols for source labels start with. -/
def labelSymbolStem : String := "gotoc.label."

/-- The symbols of compiled code. With debug information they include the source file, if it has a
name, and the source labels. -/
def symbols (machine : MachineCode) (debug : Bool) (source : Option String) : List Elf.Symbol :=
  let file := source.toList.map fun name => { name, kind := .file : Elf.Symbol }
  let functions := machine.functions.map fun function =>
    { name := function.name, kind := if function.isGlobal then .globalFunction else .function,
      value := function.offset, size := function.size : Elf.Symbol }
  let labels := machine.sourceLabels.map fun (name, offset) =>
    { name := labelSymbolStem ++ name, kind := .label, value := offset : Elf.Symbol }
  if debug then file ++ functions ++ labels else functions

def object (machine : MachineCode) (debug : Bool) (source : Option String) : Bytes :=
  Elf.object machine.bytes.toList (machine.symbols debug source)

end X64.MachineCode

end GotoLang
