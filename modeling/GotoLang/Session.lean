import GotoLang.LabelTable

/-!
# Emission sessions

A session owns the buffer, the labels and the statistics of one lowering, and keeps a journal of what
happened. Its operations report a fault together with the state they leave behind.

A transfer to a bound label counts as a backward reference even if the buffer then refuses it. A
transfer to an unbound label is emitted before it is recorded, so a full label table leaves the
placeholder in the buffer.
-/
namespace GotoLang

/-- Figures about one compilation. A reference is a forward one if it was emitted with a placeholder. -/
structure Stats where
  opsEmitted : Nat := 0
  forwardRefs : Nat := 0
  backwardRefs : Nat := 0
  labelsBound : Nat := 0
  opsAfterOpt : Nat := 0
  codeSize : Nat := 0
  graphEdges : Nat := 0
deriving DecidableEq

def Stats.text (stats : Stats) : String :=
  "Compilation Statistics:\n" ++
  s!"  Ops emitted: {stats.opsEmitted}\n" ++
  s!"  Labels bound: {stats.labelsBound}\n" ++
  s!"  Forward references: {stats.forwardRefs}\n" ++
  s!"  Backward references: {stats.backwardRefs}\n" ++
  s!"  Ops after optimization: {stats.opsAfterOpt}\n" ++
  (if stats.codeSize > 0 then s!"  Machine code size: {stats.codeSize} bytes\n" else "") ++
  (if stats.graphEdges > 0 then s!"  Grammar edges recorded: {stats.graphEdges}\n" else "")

inductive Session.Event where
  | emitted (addr : Addr) (op : Op)
  | awaited (label : String) (slot : Addr)
  | bound (label : String) (addr : Addr)
  | resolved (references : Nat)
  | finished (ops references : Nat)
deriving DecidableEq

structure Session where
  buffer : EmissionBuffer
  labels : LabelTable
  stats : Stats := {}
  journal : Array Session.Event := #[]

abbrev Emit := EStateM EmissionError Session

namespace Session

def start (maxOps : Option Nat) (maxForwardRefs : Nat) : Session :=
  { buffer := { capacity := maxOps }, labels := { capacity := maxForwardRefs } }

def onBuffer {α : Type} (action : EStateM EmissionError EmissionBuffer α) : Emit α
  | ⟨buffer, labels, stats, journal⟩ =>
    match action buffer with
    | .ok value buffer => .ok value ⟨buffer, labels, stats, journal⟩
    | .error e buffer => .error e ⟨buffer, labels, stats, journal⟩

def onLabels {α : Type} (action : EStateM EmissionError LabelTable α) : Emit α
  | ⟨buffer, labels, stats, journal⟩ =>
    match action labels with
    | .ok value labels => .ok value ⟨buffer, labels, stats, journal⟩
    | .error e labels => .error e ⟨buffer, labels, stats, journal⟩

def count (change : Stats → Stats) : Emit Unit :=
  modify fun session => { session with stats := change session.stats }

def note (event : Event) : Emit Unit :=
  modify fun session => { session with journal := session.journal.push event }

def emit (op : Op) (line : Nat) : Emit Addr := do
  let addr ← onBuffer (EmissionBuffer.emit op line)
  count fun stats => { stats with opsEmitted := stats.opsEmitted + 1 }
  note (.emitted addr op)
  return addr

/-- Bind a label to the address of the next operation. -/
def bind (label : String) (span : Span) : Emit Addr := do
  let addr := (← get).buffer.next
  onLabels (LabelTable.bind label addr span)
  count fun stats => { stats with labelsBound := stats.labelsBound + 1 }
  note (.bound label addr)
  return addr

def await (slot : Addr) (label : String) (span : Span) : Emit Unit := do
  onLabels (LabelTable.record slot label span)
  count fun stats => { stats with forwardRefs := stats.forwardRefs + 1 }
  note (.awaited label slot)

/-- Emit a transfer to a label, bound or not. -/
def emitTransfer (make : Addr → Op) (label : String) (span : Span) : Emit Addr := do
  match (← get).labels.lookup label with
  | some target =>
    count fun stats => { stats with backwardRefs := stats.backwardRefs + 1 }
    emit (make target) span.line
  | none =>
    let slot ← emit (make placeholder) span.line
    await slot label span
    return slot

/-- Resolve all labels and move the buffer into a program. Bindings stay. -/
def finish (slots : Array Variable) : Emit Program := fun session =>
  match session.labels.resolve session.buffer with
  | .error e => .error e session
  | .ok (count, labels, buffer) =>
    .ok { ops := buffer.ops, lines := buffer.lines, slots, marks := labels.marks }
      { session with
        buffer := { buffer with ops := #[], lines := #[] }
        labels
        journal := (session.journal.push (.resolved count)).push (.finished buffer.ops.size count) }

end Session

end GotoLang
