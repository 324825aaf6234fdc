import GotoLang.X64.Assembler

/-!
# Stack frames

Each variable takes eight bytes below the frame pointer, and a frame is a multiple of sixteen bytes.
Distances within a frame have to fit into a signed 32-bit number.
-/
namespace GotoLang.X64

inductive EncodingError where
  | assembly (fault : AssemblyFault)
  | unknownTarget (addr : Nat)
  | frameTooLarge (slots : Nat)
  | unknownLabel
deriving DecidableEq

def EncodingError.message : EncodingError → String
  | assembly fault => s!"Assembly error: {fault.text}"
  | unknownTarget addr => s!"Branch to unknown op {addr}"
  | frameTooLarge slots => s!"Stack frame with {slots} slots is too large"
  | unknownLabel => "Label placed twice or never created"

namespace Frame

def limit : Nat := 2147483647

def size (slots : Nat) : Except EncodingError Nat :=
  let size := (8 * slots + 15) / 16 * 16
  if size ≤ limit then .ok size else .error (.frameTooLarge slots)

/-- How far below the frame pointer a variable lives. -/
def offset (slot : Nat) : Except EncodingError Nat :=
  let offset := 8 * (slot + 1)
  if offset ≤ limit then .ok offset else .error (.frameTooLarge slot)

variable {label : Type}

/-- Set up a frame and clear its variables. -/
def prologue (slots : Nat) : Except EncodingError (List (Instr label)) := do
  let size ← Frame.size slots
  let enter := [.push .rbp, .mov .rbp .rsp]
  if size = 0 then return enter
  let stores ← (List.range slots).mapM fun slot => return .store (← offset slot) .rax
  return enter ++ [.reserve size, .clear .rax] ++ stores

def epilogue : List (Instr label) :=
  [.mov .rsp .rbp, .pop .rbp, .ret]

end Frame

end GotoLang.X64
