import GotoLang.Optimize.Jumps
import GotoLang.Optimize.Prune
import GotoLang.Optimize.Renumber

/-!
# Optimization levels

The first level folds constants. The second also shortens transfers and prunes what cannot be reached.
The third drops jumps to the next operation as well and repeats everything until nothing changes.
Empty operations are dropped once, at the end.
-/
namespace GotoLang

inductive OptLevel where
  | none | o1 | o2 | o3
deriving DecidableEq

namespace OptLevel

def toNat : OptLevel → Nat
  | none => 0
  | o1 => 1
  | o2 => 2
  | o3 => 3

def ofNat? : Nat → Option OptLevel
  | 0 => some none
  | 1 => some o1
  | 2 => some o2
  | 3 => some o3
  | _ => Option.none

def text : OptLevel → String
  | none => "none"
  | o1 => "O1"
  | o2 => "O2"
  | o3 => "O3"

end OptLevel

structure OptStats where
  folded : Nat := 0
  threaded : Nat := 0
  unreachable : Nat := 0
  jumpsRemoved : Nat := 0
  removed : Nat := 0
deriving DecidableEq

namespace OptStats

/-- The number of changes, apart from dropping empty operations. -/
def changed (stats : OptStats) : Nat :=
  stats.folded + stats.threaded + stats.unreachable + stats.jumpsRemoved

def text (stats : OptStats) : String :=
  s!"folded {stats.folded}, threaded {stats.threaded}, unreachable {stats.unreachable}, " ++
  s!"jumps removed {stats.jumpsRemoved}, ops removed {stats.removed}"

end OptStats

namespace Optimize

abbrev Progress := Array Op × OptStats

def fold : Progress → Progress := fun (ops, stats) =>
  let (ops, count) := Op.foldConstants ops
  (ops, { stats with folded := stats.folded + count })

def thread : Progress → Progress := fun (ops, stats) =>
  let (ops, count) := Op.threadJumps ops
  (ops, { stats with threaded := stats.threaded + count })

def prune : Progress → Progress := fun (ops, stats) =>
  let (ops, count) := Op.prune ops
  (ops, { stats with unreachable := stats.unreachable + count })

def bypass : Progress → Progress := fun (ops, stats) =>
  let (ops, count) := Op.bypassJumps ops
  (ops, { stats with jumpsRemoved := stats.jumpsRemoved + count })

def round (progress : Progress) : Progress :=
  bypass (prune (thread (fold progress)))

def rounds : Nat → Progress → Progress
  | 0, progress => progress
  | bound + 1, progress =>
    let next := round progress
    if next.2.changed = progress.2.changed then next else rounds bound next

/-- The passes of a level. Of two rounds in a row that change something, one leaves fewer live
operations, which bounds the rounds of the last level. -/
def passes (level : OptLevel) (ops : Array Op) : Progress :=
  match level with
  | .none => (ops, {})
  | .o1 => fold (ops, {})
  | .o2 => prune (thread (fold (ops, {})))
  | .o3 => rounds (2 * ops.size + 2) (ops, {})

end Optimize

def Program.optimize (level : OptLevel) (program : Program) : Program × OptStats :=
  if level = .none then (program, {})
  else
    let (ops, stats) := Optimize.passes level program.ops
    let (program, removed) := { program with ops }.renumber
    (program, { stats with removed })

end GotoLang
