import GotoLang.X64.MachineCode

/-!
# Assembly text

The functions, all instructions, and then the data, with a line for each label. With debug
information, source labels and source lines appear as comments. Branches show the name that stands
where they go to.
-/
namespace GotoLang.X64

namespace Listing

def dataPerLine : Nat := 12

def tabbed (text : String) : String :=
  s!"\t{text}"

/-- What stands for an offset: the first name it has, or else the number. -/
def symbol (labels : List (Nat × String)) (offset : Nat) : String :=
  (labels.lookup offset).getD (toString offset)

def definition (name : String) : String :=
  s!"{name}:"

def labelLines (labels : List (Nat × String)) (offset : Nat) : List String :=
  (labels.filter (·.1 = offset)).map fun (_, name) => definition name

def sourceLabelLines (machine : MachineCode) (placed : Placed CodeLabel) : List String :=
  match placed.mark with
  | some (.op _) =>
    (machine.sourceLabels.filter (·.2 = placed.offset)).map fun (name, _) => tabbed s!"# label {name}"
  | _ => []

def sourceLineLines (machine : MachineCode) (placed : Placed CodeLabel) : List String :=
  match placed.mark with
  | some (.op addr) => (machine.lines[addr]?.map fun line => tabbed s!"# line {line}").toList
  | _ => []

def instrLines (machine : MachineCode) (labels : List (Nat × String)) (debug : Bool)
    (placed : Placed CodeLabel) : List String :=
  (if debug then sourceLabelLines machine placed else []) ++
  labelLines labels placed.offset ++
  (if debug then sourceLineLines machine placed else []) ++
  [tabbed (placed.instr.text fun _ => symbol labels (placed.target.getD 0))]

/-- What is announced about a function before the code. -/
def functionHead (function : Function) : List String :=
  (if function.isGlobal then [tabbed s!".globl\t{function.name}"] else []) ++
  [tabbed s!".type\t{function.name}, @function"]

def codePart (machine : MachineCode) (debug : Bool) : List String :=
  (machine.code.filter fun placed => placed.offset < machine.codeSize).flatMap
    (instrLines machine machine.labels debug)

def dataLines (bytes : List UInt8) : List String :=
  match bytes with
  | [] => []
  | b :: rest =>
    tabbed ((Instr.data (b :: rest.take (dataPerLine - 1)) : Instr Nat).text toString)
      :: dataLines (rest.drop (dataPerLine - 1))
termination_by bytes.length
decreasing_by
  simp only [List.length_drop, List.length_cons]
  omega

/-- Data behind the code. Each piece starts on a line of its own. -/
def dataPart (machine : MachineCode) : List String :=
  let labels := machine.labels
  (machine.code.filter fun placed => machine.codeSize ≤ placed.offset).flatMap fun placed =>
    labelLines labels placed.offset ++ dataLines placed.bytes

def lines (machine : MachineCode) (debug : Bool) : List String :=
  ["# gotoc x86-64 (AT&T syntax)", tabbed ".text"] ++
  machine.functions.flatMap functionHead ++
  codePart machine debug ++
  machine.functions.map (fun function => tabbed s!".size\t{function.name}, {function.size}") ++
  dataPart machine ++
  [tabbed ".section\t.note.GNU-stack,\"\",@progbits"]

end Listing

def MachineCode.listing (machine : MachineCode) (debug : Bool) : String :=
  String.join ((Listing.lines machine debug).map (· ++ "\n"))

end GotoLang.X64
