import GotoLang.Program

/-!
# Operations that control never reaches
-/
namespace GotoLang

namespace Prune

def follow (ops : Array Op) : Nat → List Nat → Array Bool → Array Bool
  | 0, _, reached => reached
  | _, [], reached => reached
  | visits + 1, addr :: work, reached =>
    match ops[addr]? with
    | none => follow ops visits work reached
    | some op =>
      if reached.getD addr false then follow ops visits work reached
      else follow ops visits (op.successors addr ++ work) (reached.setIfInBounds addr true)

/-- For each operation, whether some path from the first one leads there. Every operation is left
once and leads to at most two others, which bounds the visits. -/
def reached (ops : Array Op) : Array Bool :=
  follow ops (2 * ops.size + 1) [0] (Array.replicate ops.size false)

end Prune

/-- Empty the operations that control never reaches; tells how many that were. -/
def Op.prune (ops : Array Op) : Array Op × Nat :=
  let reached := Prune.reached ops
  (ops.mapIdx fun addr op => if reached.getD addr false then op else .nop,
    (ops.zip reached).countP fun (op, live) => !live && op ≠ .nop)

end GotoLang
