import GotoLang.X64.Frame

/-!
# Encoders

An encoder writes code that has one label for each operation of a program and further labels with
names, which are known by the order of their creation.
-/
namespace GotoLang.X64

inductive Encoder.Label where
  | op (addr : Nat)
  | named (index : Nat)
deriving DecidableEq

structure Encoder where
  opCount : Nat
  names : Array String := #[]
  assembler : Assembler Encoder.Label := {}

namespace Encoder

/-- Create a label with a name and tell its index. Names may be shared. -/
def create (encoder : Encoder) (name : String) : Nat × Encoder :=
  (encoder.names.size, { encoder with names := encoder.names.push name })

def check (encoder : Encoder) : Label → Except EncodingError Unit
  | .op addr => if addr < encoder.opCount then .ok () else .error (.unknownTarget addr)
  | .named index => if index < encoder.names.size then .ok () else .error .unknownLabel

def place (encoder : Encoder) (mark : Label) : Except EncodingError Encoder := do
  encoder.check mark
  match encoder.assembler.place mark with
  | .ok assembler => return { encoder with assembler }
  | .error fault => throw (.assembly fault)

/-- Append instructions, whose targets have to be labels of this encoder. -/
def emit (encoder : Encoder) (code : List (Instr Label)) : Except EncodingError Encoder := do
  (code.filterMap Instr.target?).forM encoder.check
  return { encoder with assembler := encoder.assembler.emitAll code }

/-- Set up a frame; one that is too large leaves the code as it is. -/
def emitPrologue (encoder : Encoder) (slots : Nat) : Except EncodingError Encoder := do
  encoder.emit (← Frame.prologue slots)

def finish (encoder : Encoder) : Except EncodingError (Assembly Label) :=
  let outcome := do
    let code ← encoder.assembler.finish
    code.resolve ((List.range encoder.opCount).map .op)
      (encoder.names.toList.zipIdx.map fun (name, index) => (name, .named index))
  outcome.mapError .assembly

end Encoder

end GotoLang.X64
