import GotoLang.Program.Flow
import GotoLang.X64.Frame
import GotoLang.X64.Routines

/-!
# Machine code of a program

Each operation becomes a few instructions of its own. In the plain mode the evaluation stack is the
machine stack. In the cached mode its top is kept in `rax` and the rest on the machine stack, so the
instructions depend on the depth of the stack on entry. Operations that control never reaches become an
undefined instruction.

The labels of the code are created apart from it. Code that uses another label or leaves one of them out
is refused.
-/
namespace GotoLang.X64

structure CodeOptions where
  stackBased : Bool := false
  entryPoint : Bool := false
deriving DecidableEq

inductive CodeError where
  | program (fault : ProgramFault)
  | encoding (error : EncodingError)
deriving DecidableEq

namespace CodeGeneration

def onlyIf (cond : Bool) (code : Code) : Code :=
  if cond then code else []

/-- An operator other than division, of `rcx` and `rax` into `rax`. -/
def combine : BinaryOp → Code
  | .arith .add => [.alu .add .rax .rcx]
  | .arith .sub => [.alu .sub .rcx .rax, .mov .rax .rcx]
  | .arith .mul => [.imul .rax .rcx]
  | .arith .div | .arith .rem => []
  | .logic .and => [.alu .and .rax .rcx]
  | .logic .or => [.alu .or .rax .rcx]
  | .cmp cond => [.alu .cmp .rcx .rax, .setCond cond, .widen]

/-- Division of `rax` by `rcx` into `rax`. A zero divisor leaves for the trap. Minus one, which the
division instruction cannot take with the smallest number, becomes a negation and a division by one. -/
def division (addr : Nat) (remainder : Bool) : Script :=
  Code.script [
    .alu .test .rcx .rcx,
    .jumpIf .zero .trap,
    .cmpByte .rcx (-1),
    .jumpIf .notZero (.divide addr),
    .neg .rax,
    .movLow .rcx 1] ++
  .place (.divide addr) :: Code.script ([.cqo, .idiv .rcx] ++ onlyIf remainder [.mov .rax .rdx])

def unary : UnaryOp → Code
  | .neg => [.neg .rax]
  | .not => [.flip]

def printer : Ty → CodeLabel
  | .int => .printInt
  | .bool => .printBool

def divides? : BinaryOp → Option Bool
  | .arith .div => some false
  | .arith .rem => some true
  | _ => none

def cached (addr depth : Nat) : Op → Except EncodingError Script
  | .push value => return Code.script (onlyIf (0 < depth) [.push .rax] ++ [.movWord .rax value])
  | .load slot => do
    let offset ← Frame.offset slot.toNat
    return Code.script (onlyIf (0 < depth) [.push .rax] ++ [.load .rax offset])
  | .store slot => do
    let offset ← Frame.offset slot.toNat
    return Code.script ([.store offset .rax] ++ onlyIf (1 < depth) [.pop .rax])
  | .unary op => return Code.script (unary op)
  | .binary op =>
    match divides? op with
    | some remainder => return Code.script [.mov .rcx .rax, .pop .rax] ++ division addr remainder
    | none => return Code.script ([.pop .rcx] ++ combine op)
  | .jump target => return Code.script [.jump (.op target.toNat)]
  | .jumpIf target =>
    return Code.script ([.alu .test .rax .rax] ++ onlyIf (1 < depth) [.pop .rax] ++
      [.jumpIf .notZero (.op target.toNat)])
  | .print ty =>
    return Code.script ([.mov .rdi .rax, .call (printer ty)] ++ onlyIf (1 < depth) [.pop .rax])
  | .exit => return Code.script [.jump .leave]
  | .nop => return Code.script [.nop]

def plain (addr : Nat) : Op → Except EncodingError Script
  | .push value => return Code.script [.movWord .rax value, .push .rax]
  | .load slot => do
    let offset ← Frame.offset slot.toNat
    return Code.script [.load .rax offset, .push .rax]
  | .store slot => do
    let offset ← Frame.offset slot.toNat
    return Code.script [.pop .rax, .store offset .rax]
  | .unary op => return Code.script ([.pop .rax] ++ unary op ++ [.push .rax])
  | .binary op =>
    match divides? op with
    | some remainder =>
      return Code.script [.pop .rcx, .pop .rax] ++ division addr remainder ++
        Code.script [.push .rax]
    | none => return Code.script ([.pop .rax, .pop .rcx] ++ combine op ++ [.push .rax])
  | .jump target => return Code.script [.jump (.op target.toNat)]
  | .jumpIf target =>
    return Code.script [.pop .rax, .alu .test .rax .rax, .jumpIf .notZero (.op target.toNat)]
  | .print ty => return Code.script [.pop .rdi, .call (printer ty)]
  | .exit => return Code.script [.pop .rax, .jump .leave]
  | .nop => return Code.script [.nop]

def operation (stackBased : Bool) (addr : Nat) (depth : Option Nat) (op : Op) :
    Except EncodingError Script := do
  let body ← match depth with
    | none => pure (Code.script [.undefined])
    | some depth => if stackBased then plain addr op else cached addr depth op
  return .place (.op addr) :: body

structure Needs where
  printInt : Bool
  printBool : Bool
  trap : Bool
deriving DecidableEq

def divides : Op → Bool
  | .binary op => (divides? op).isSome
  | _ => false

/-- All operations count, whether control reaches them or not. -/
def needs (ops : Array Op) : Needs where
  printInt := ops.contains (.print .int)
  printBool := ops.contains (.print .bool)
  trap := ops.any divides

def optional {α : Type} (present : Bool) (list : List α) : List α :=
  if present then list else []

def operations (options : CodeOptions) (ops : List Op) (depths : List (Option Nat)) :
    Except EncodingError Script :=
  List.flatten <$> ((ops.zip depths).zipIdx.mapM fun ((op, depth), addr) =>
    operation options.stackBased addr depth op)

/-- Everything that stands behind the program: the trap, the routines and their texts. -/
def support (needs : Needs) : Script :=
  optional needs.trap Routines.trap ++
  optional needs.printInt Routines.printInt ++
  optional needs.printBool Routines.printBool ++
  optional needs.trap (Routines.datum .trapText Machine.trapMessage) ++
  optional needs.printBool
    (Routines.datum .trueText Routines.trueText ++ Routines.datum .falseText Routines.falseText)

def script (options : CodeOptions) (program : Program) (depths : Flow.Depths) :
    Except EncodingError Script := do
  let prologue ← Frame.prologue program.slots.size
  let body ← operations options program.ops.toList depths.toList
  return optional options.entryPoint Routines.start ++
    .place .main :: Code.script prologue ++ body ++
    .place .leave :: Code.script Frame.epilogue ++
    support (needs program.ops)

/-- The labels within the divisions that control reaches, from an address on. -/
def divisions : Nat → List (Op × Option Nat) → List CodeLabel
  | _, [] => []
  | addr, (op, depth) :: rest =>
    optional (depth.isSome && divides op) [.divide addr] ++ divisions (addr + 1) rest

def named (entryPoint : Bool) (needs : Needs) : List CodeLabel :=
  [.main, .leave] ++
  optional entryPoint [.start] ++
  optional needs.trap [.trap, .trapText] ++
  optional needs.printInt [.printInt, .printIntPositive, .printIntDigit, .printIntWrite] ++
  optional needs.printBool [.printBool, .printBoolFalse, .printBoolWrite, .trueText, .falseText]

def opLabels (ops : Array Op) : List CodeLabel :=
  (List.range ops.size).map .op

def namedLabels (options : CodeOptions) (ops : Array Op) (depths : Flow.Depths) : List CodeLabel :=
  divisions 0 (ops.toList.zip depths.toList) ++ named options.entryPoint (needs ops)

def labels (options : CodeOptions) (ops : Array Op) (depths : Flow.Depths) : List CodeLabel :=
  opLabels ops ++ namedLabels options ops depths

def unknown : CodeLabel → EncodingError
  | .op addr => .unknownTarget addr
  | _ => .unknownLabel

/-- Check that a directive places or refers to a label that was created. -/
def check (labels : List CodeLabel) (directive : Directive CodeLabel) : Except EncodingError Unit :=
  match directive.label? with
  | some mark => if labels.contains mark then .ok () else .error (unknown mark)
  | none => .ok ()

/-- Assemble a script that can use no other labels than these. -/
def assemble (labels : List CodeLabel) (script : Script) :
    Except EncodingError (Assembled CodeLabel) := do
  script.forM (check labels)
  let outcome := do
    let assembler ← script.foldlM Assembler.perform ({} : Assembler CodeLabel)
    assembler.finish
  outcome.mapError .assembly

/-- Look up all labels of a program in its code. -/
def resolve (options : CodeOptions) (ops : Array Op) (depths : Flow.Depths) (code : Assembled CodeLabel) :
    Except EncodingError (Assembly CodeLabel) :=
  let named := (namedLabels options ops depths).map fun mark => (mark.name, mark)
  (code.resolve (opLabels ops) named).mapError .assembly

end CodeGeneration

end GotoLang.X64
