import GotoLang.Dictionary
import GotoLang.EmissionBuffer

/-!
# Labels and the transfers that wait for them

A label is bound once, to the address where it is defined. A transfer to a label that is not bound yet
is recorded, up to a capacity, and gets its target when the table is resolved against the buffer.
Resolving checks every record before it changes anything.
-/
namespace GotoLang

structure LabelTable.Reference where
  slot : Addr
  label : String
  span : Span
deriving DecidableEq

structure LabelTable.Binding where
  addr : Addr
  span : Span
deriving DecidableEq

structure LabelTable where
  pending : Array LabelTable.Reference := #[]
  bindings : Dictionary LabelTable.Binding := {}
  order : Array String := #[]
  capacity : Nat
deriving DecidableEq

namespace LabelTable

def lookup (table : LabelTable) (label : String) : Option Addr :=
  (table.bindings.get? label).map Binding.addr

def record (slot : Addr) (label : String) (span : Span) : EStateM EmissionError LabelTable Unit := do
  if (← get).capacity ≤ (← get).pending.size then throw (.tooManyReferences (← get).capacity)
  modify fun table => { table with pending := table.pending.push ⟨slot, label, span⟩ }

/-- Bind a label; labels share one scope. -/
def bind (label : String) (addr : Addr) (span : Span) : EStateM EmissionError LabelTable Unit := do
  if let some earlier := (← get).bindings.get? label then
    throw (.duplicateLabel label earlier.span span)
  modify fun table => { table with bindings := table.bindings.insert label ⟨addr, span⟩ }
  modify fun table => { table with order := table.order.push label }

def marks (table : LabelTable) : Array Mark :=
  table.order.filterMap fun label => (table.lookup label).map (Mark.mk label)

/-- What a record stands for: a transfer in the buffer and the address it goes to. -/
def resolveOne (table : LabelTable) (buffer : EmissionBuffer) (reference : Reference) :
    Except EmissionError (Addr × Addr) :=
  match table.lookup reference.label with
  | none => .error (.undefinedLabel reference.label reference.span)
  | some addr =>
    if ((buffer.get? reference.slot).bind Op.target?).isSome then .ok (reference.slot, addr)
    else .error (.notATransfer reference.slot)

/-- Give every waiting transfer its target and tell how many there were. The first record that cannot
be resolved stops this before anything is changed. -/
def resolve (table : LabelTable) (buffer : EmissionBuffer) :
    Except EmissionError (Nat × LabelTable × EmissionBuffer) := do
  let resolved ← table.pending.toList.mapM (table.resolveOne buffer)
  let buffer ← resolved.foldlM (fun buffer (slot, addr) => buffer.patch slot addr) buffer
  return (resolved.length, { table with pending := #[] }, buffer)

end LabelTable

end GotoLang
