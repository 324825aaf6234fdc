import GotoLang.Sink
import GotoLang.X64.LabelMap
import GotoLang.X64.Layout

/-!
# Labels and code

Code is a sequence of instructions, each with at most one label before it. A label is placed once and
then waits for its instruction. Code can be assembled when no label waits and all branches reach where
they go to. A label that was never placed has no offset then.
-/
namespace GotoLang.X64

inductive AssemblyFault where
  | labelReused
  | labelCrowded
  | labelUnused
  | labelUnplaced
  | targetTooFar
deriving DecidableEq

def AssemblyFault.text : AssemblyFault → String
  | labelReused => "Labels can't be re-used and can only be set once."
  | labelCrowded => "Only one label per instruction is allowed"
  | labelUnused => "Unused label. Did you forget to add an instruction?"
  | labelUnplaced =>
    "The label is not associated with an instruction index. " ++
    "It must be emitted via `CodeAssembler::set_label()`."
  | targetTooFar => "IP relative memory operand is too far away and isn't currently supported"

/-- An instruction and the label before it. -/
structure Line (label : Type) where
  mark : Option label
  instr : Instr label
deriving DecidableEq

inductive Directive (label : Type) where
  | place (mark : label)
  | emit (instr : Instr label)
deriving DecidableEq

def Directive.label? {label : Type} : Directive label → Option label
  | place mark => some mark
  | emit instr => instr.target?

/-- An instruction at its final place. -/
structure Placed (label : Type) extends Line label where
  offset : Nat
  size : Nat
  target : Option Nat
deriving DecidableEq

namespace Placed

variable {label : Type}

/-- From the end of an instruction to what it refers to. -/
def distance (placed : Placed label) : Int :=
  placed.target.getD 0 - (placed.offset + placed.size)

/-- The bytes of an instruction at its place. Of a branch, only the short form has two bytes. -/
def bytes (placed : Placed label) : List UInt8 :=
  placed.instr.bytes (placed.size == 2) placed.distance

/-- Whether the distance to a target is a signed 32-bit number. -/
def reaches (placed : Placed label) : Bool :=
  placed.target.isNone || (-2147483648 ≤ placed.distance && placed.distance ≤ 2147483647)

end Placed

abbrev Assembled (label : Type) := List (Placed label)

namespace Assembled

variable {label : Type}

def bytes (code : Assembled label) : Bytes :=
  (code.flatMap Placed.bytes).toArray

def marks (code : Assembled label) : List (label × Nat) :=
  code.filterMap fun placed => placed.mark.map fun mark => (mark, placed.offset)

def offset? [DecidableEq label] (code : Assembled label) (mark : label) : Option Nat :=
  code.marks.lookup mark

/-- The offset of a label that has to be placed. -/
def labelOffset [DecidableEq label] (code : Assembled label) (mark : label) : Except AssemblyFault Nat :=
  match code.offset? mark with
  | some offset => .ok offset
  | none => .error .labelUnplaced

end Assembled

structure Assembly (label : Type) where
  code : Assembled label
  opOffsets : Array Nat
  labels : LabelMap
deriving DecidableEq

/-- Look up where the labels of operations and those with a name stand. -/
def Assembled.resolve {label : Type} [DecidableEq label] (code : Assembled label) (ops : List label)
    (named : List (String × label)) : Except AssemblyFault (Assembly label) := do
  let opOffsets ← ops.mapM code.labelOffset
  let offsets ← named.mapM fun entry => code.labelOffset entry.2
  let labels := ((named.map Prod.fst).zip offsets).foldl (fun labels entry => labels.add entry.2 entry.1) {}
  return { code, opOffsets := opOffsets.toArray, labels }

/-- Placed are the labels so far, the latest first; it may still wait for its instruction. -/
structure Assembler (label : Type) where
  lines : Array (Line label) := #[]
  placed : List label := []
  waiting : Option label := none
deriving DecidableEq

namespace Assembler

variable {label : Type} [DecidableEq label]

def place (assembler : Assembler label) (mark : label) : Except AssemblyFault (Assembler label) :=
  if assembler.placed.contains mark then .error .labelReused
  else if assembler.waiting.isSome then .error .labelCrowded
  else .ok { assembler with placed := mark :: assembler.placed, waiting := some mark }

/-- Append an instruction; it takes the label that waits. -/
def emit (assembler : Assembler label) (instr : Instr label) : Assembler label :=
  { assembler with lines := assembler.lines.push ⟨assembler.waiting, instr⟩, waiting := none }

def emitAll (assembler : Assembler label) (code : List (Instr label)) : Assembler label :=
  code.foldl emit assembler

def perform (assembler : Assembler label) : Directive label → Except AssemblyFault (Assembler label)
  | .place mark => assembler.place mark
  | .emit instr => .ok (assembler.emit instr)

def indices (lines : List (Line label)) : List (label × Nat) :=
  lines.zipIdx.filterMap fun (line, index) => line.mark.map fun mark => (mark, index)

def assemble (lines : List (Line label)) : Assembled label :=
  let indices := indices lines
  let code := lines.map fun line => line.instr.map fun target => (indices.lookup target).getD 0
  let sizes := Layout.sizes code
  let offsets := (Layout.offsets 0 sizes).toArray
  ((lines.zip code).zip sizes).zipIdx.map fun (((line, instr), size), index) =>
    { toLine := line
      offset := offsets.getD index 0
      size
      target := instr.target?.map fun target => offsets.getD target 0 }

def code (assembler : Assembler label) : Assembled label :=
  assemble assembler.lines.toList

def finish (assembler : Assembler label) : Except AssemblyFault (Assembled label) :=
  if assembler.waiting.isSome then .error .labelUnused
  else if assembler.code.all Placed.reaches then .ok assembler.code
  else .error .targetTooFar

end Assembler

end GotoLang.X64
