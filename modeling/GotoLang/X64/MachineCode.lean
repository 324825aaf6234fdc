import GotoLang.KeyOrder
import GotoLang.X64.CodeGeneration

/-!
# Compiled programs

The machine code of a program with everything that a listing or an object file shows about it. Functions
and data are found in the assembled code by the names of their labels.
-/
namespace GotoLang.X64

structure Function where
  name : String
  offset : Nat
  size : Nat
  isGlobal : Bool
deriving DecidableEq

/-- The data stand behind the code; the code size does not count them. -/
structure MachineCode where
  code : Assembled CodeLabel
  codeSize : Nat
  functions : List Function
  labelMap : LabelMap
  opOffsets : Array Nat
  lines : Array Nat
  sourceLabels : List (String × Nat)
deriving DecidableEq

namespace MachineCode

def bytes (machine : MachineCode) : Bytes :=
  machine.code.bytes

def labels (machine : MachineCode) : List (Nat × String) :=
  machine.labelMap.pairs

def symbol? (machine : MachineCode) (name : String) : Option Function :=
  machine.functions.find? (·.name = name)

def mainOffset (machine : MachineCode) : Nat :=
  ((machine.symbol? (CodeLabel.name .main)).map Function.offset).getD 0

/-- Where the data begin: at the first of the texts that are there. -/
def dataStart (assembly : Assembly CodeLabel) : Nat :=
  (([CodeLabel.trapText, .trueText].map CodeLabel.name).filterMap assembly.labels.offset?).min?.getD
    assembly.code.bytes.size

/-- The names of the functions, and whether other objects can refer to them. -/
def starts (options : CodeOptions) (needs : CodeGeneration.Needs) : List (String × Bool) :=
  CodeGeneration.optional options.entryPoint [(CodeLabel.name .start, true)] ++
  [(CodeLabel.name .main, true)] ++
  CodeGeneration.optional needs.printInt [(CodeLabel.name .printInt, false)] ++
  CodeGeneration.optional needs.printBool [(CodeLabel.name .printBool, false)]

def found (options : CodeOptions) (needs : CodeGeneration.Needs) (labels : LabelMap) : List Function :=
  (starts options needs).filterMap fun start =>
    (labels.offset? start.1).map fun offset => { name := start.1, offset, size := 0, isGlobal := start.2 }

/-- Let each function reach to the next one and the last one to an offset. -/
def withSizes (stop : Nat) (functions : List Function) : List Function :=
  let ends := (functions.drop 1).map Function.offset ++ [stop]
  (functions.zip ends).map fun entry => { entry.1 with size := entry.2 - entry.1.offset }

def nameTargets (targets : Array Bool) (opOffsets : Array Nat) (labels : LabelMap) : LabelMap :=
  opOffsets.toList.zipIdx.foldl (fun labels entry =>
    if targets.getD entry.2 false then labels.add entry.1 (CodeLabel.name (.op entry.2)) else labels) labels

def describe (program : Program) (options : CodeOptions) (needs : CodeGeneration.Needs)
    (assembly : Assembly CodeLabel) : MachineCode :=
  { code := assembly.code
    codeSize := dataStart assembly
    functions := withSizes (dataStart assembly) (sortByKey Function.offset (found options needs assembly.labels))
    labelMap := nameTargets (Op.targets program.ops) assembly.opOffsets assembly.labels
    opOffsets := assembly.opOffsets
    lines := program.lines
    sourceLabels := program.marks.toList.filterMap fun mark =>
      assembly.opOffsets[mark.addr.toNat]?.map (mark.name, ·) }

end MachineCode

end X64

/-- The machine code of a program. Its stack discipline is checked first; slots and lines are not. -/
def Program.compile (program : Program) (options : X64.CodeOptions) :
    Except X64.CodeError X64.MachineCode :=
  match program.depths with
  | .error fault => .error (.program fault)
  | .ok depths =>
    let outcome := do
      let script ← X64.CodeGeneration.script options program depths
      let code ← X64.CodeGeneration.assemble (X64.CodeGeneration.labels options program.ops depths) script
      X64.CodeGeneration.resolve options program.ops depths code
    match outcome with
    | .ok assembly =>
      .ok (X64.MachineCode.describe program options (X64.CodeGeneration.needs program.ops) assembly)
    | .error error => .error (.encoding error)

end GotoLang
