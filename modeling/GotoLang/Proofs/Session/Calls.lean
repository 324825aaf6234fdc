import GotoLang.Proofs.LabelTable
import GotoLang.Session

/-!
# What the calls on a session do

Each call asks the buffer or the labels first and then counts and notes what was done. So its outcome depends
on whether the buffer has room, whether the label is bound, and whether the label table has room.
-/
namespace GotoLang

namespace EmissionBuffer

variable {op : Op} {line : Nat} {buffer : EmissionBuffer}

theorem isFull_eq_false : buffer.isFull = false ↔ buffer.ops.size < buffer.limit := by
  simp [isFull]

theorem emit_of_full (h : buffer.isFull) : emit op line buffer = .error (.bufferFull buffer.limit) buffer :=
  if_pos h

theorem emit_of_room (h : buffer.isFull = false) : emit op line buffer = .ok buffer.next (buffer.push op line) :=
  if_neg (by simp [h])

end EmissionBuffer

namespace Session

variable {session : Session} {op : Op} {make : Addr → Op} {line : Nat} {slot : Addr} {label : String} {span : Span}

section
variable {α : Type} {value : α} {e : EmissionError}

theorem onBuffer_of_ok {action : EStateM EmissionError EmissionBuffer α} {buffer : EmissionBuffer}
    (h : action session.buffer = .ok value buffer) :
    onBuffer action session = .ok value { session with buffer } := by
  simp only [onBuffer, h]

theorem onBuffer_of_error {action : EStateM EmissionError EmissionBuffer α} {buffer : EmissionBuffer}
    (h : action session.buffer = .error e buffer) :
    onBuffer action session = .error e { session with buffer } := by
  simp only [onBuffer, h]

theorem onLabels_of_ok {action : EStateM EmissionError LabelTable α} {labels : LabelTable}
    (h : action session.labels = .ok value labels) :
    onLabels action session = .ok value { session with labels } := by
  simp only [onLabels, h]

theorem onLabels_of_error {action : EStateM EmissionError LabelTable α} {labels : LabelTable}
    (h : action session.labels = .error e labels) :
    onLabels action session = .error e { session with labels } := by
  simp only [onLabels, h]

end

/-- The session after an operation was appended. -/
def emitted (session : Session) (op : Op) (line : Nat) : Session :=
  { session with
    buffer := session.buffer.push op line
    stats := { session.stats with opsEmitted := session.stats.opsEmitted + 1 }
    journal := session.journal.push (.emitted session.buffer.next op) }

theorem emit_of_full (h : session.buffer.isFull) :
    emit op line session = .error (.bufferFull session.buffer.limit) session :=
  bind_of_error (onBuffer_of_error (EmissionBuffer.emit_of_full h))

theorem emit_of_room (h : session.buffer.isFull = false) :
    emit op line session = .ok session.buffer.next (session.emitted op line) :=
  bind_of_ok (onBuffer_of_ok (EmissionBuffer.emit_of_room h))

theorem emit_eq_ok {addr : Addr} {next : Session} (h : emit op line session = .ok addr next) :
    session.buffer.isFull = false ∧ addr = session.buffer.next ∧ next = session.emitted op line := by
  cases hfull : session.buffer.isFull with
  | true =>
      rw [emit_of_full hfull] at h
      cases h
  | false =>
      rw [emit_of_room hfull] at h
      cases h
      exact ⟨rfl, rfl, rfl⟩

theorem bind_of_bound {earlier : LabelTable.Binding} (h : session.labels.bindings.get? label = some earlier) :
    Session.bind label span session = .error (.duplicateLabel label earlier.span span) session := by
  rw [Session.bind, get_bind]
  exact bind_of_error (onLabels_of_error (LabelTable.bind_of_bound h))

/-- The session after a label was bound. -/
def bound (session : Session) (label : String) (labels : LabelTable) : Session :=
  { session with
    labels
    stats := { session.stats with labelsBound := session.stats.labelsBound + 1 }
    journal := session.journal.push (.bound label session.buffer.next) }

theorem bind_of_unbound (h : session.labels.bindings.get? label = none) :
    Session.bind label span session = .ok session.buffer.next
      (session.bound label { session.labels with
        bindings := session.labels.bindings.insert label ⟨session.buffer.next, span⟩
        order := session.labels.order.push label }) := by
  rw [Session.bind, get_bind]
  exact bind_of_ok (onLabels_of_ok (LabelTable.bind_of_unbound h))

theorem bind_eq_ok_iff {addr : Addr} {next : Session} : Session.bind label span session = .ok addr next ↔
    ∃ labels, LabelTable.bind label session.buffer.next span session.labels = .ok () labels ∧
      addr = session.buffer.next ∧ next = session.bound label labels := by
  cases hget : session.labels.bindings.get? label with
  | some earlier => simp [bind_of_bound hget, LabelTable.bind_of_bound hget]
  | none => simp [bind_of_unbound hget, LabelTable.bind_of_unbound hget, eq_comm]

theorem await_of_full (h : session.labels.capacity ≤ session.labels.pending.size) :
    await slot label span session = .error (.tooManyReferences session.labels.capacity) session :=
  bind_of_error (onLabels_of_error (LabelTable.record_of_full h))

theorem await_of_room (h : session.labels.pending.size < session.labels.capacity) :
    await slot label span session = .ok ()
      { session with
        labels := { session.labels with pending := session.labels.pending.push ⟨slot, label, span⟩ }
        stats := { session.stats with forwardRefs := session.stats.forwardRefs + 1 }
        journal := session.journal.push (.awaited label slot) } :=
  bind_of_ok (onLabels_of_ok (LabelTable.record_of_room h))

/-- A transfer to a bound label was counted. -/
def counted (session : Session) : Session :=
  { session with stats := { session.stats with backwardRefs := session.stats.backwardRefs + 1 } }

/-- A transfer to a bound label is counted first and emitted then. -/
theorem emitTransfer_of_bound {target : Addr} (h : session.labels.lookup label = some target) :
    emitTransfer make label span session = emit (make target) span.line session.counted := by
  rw [emitTransfer, get_bind]
  simp only [h]
  exact bind_of_ok rfl

/-- A transfer to an unbound label needs room in the buffer first. -/
theorem emitTransfer_of_full (h : session.labels.lookup label = none) (hfull : session.buffer.isFull) :
    emitTransfer make label span session = .error (.bufferFull session.buffer.limit) session := by
  rw [emitTransfer, get_bind]
  simp only [h]
  exact bind_of_error (emit_of_full hfull)

/-- If there is room for the transfer but not for its record, it was appended all the same. -/
theorem emitTransfer_of_table_full (h : session.labels.lookup label = none)
    (hroom : session.buffer.isFull = false) (hfull : session.labels.capacity ≤ session.labels.pending.size) :
    emitTransfer make label span session =
      .error (.tooManyReferences session.labels.capacity) (session.emitted (make placeholder) span.line) := by
  rw [emitTransfer, get_bind]
  simp only [h]
  rw [bind_of_ok (emit_of_room hroom)]
  exact bind_of_error (await_of_full hfull)

/-- The session after a transfer was appended and recorded. -/
def awaiting (session : Session) (make : Addr → Op) (label : String) (span : Span) : Session :=
  { session.emitted (make placeholder) span.line with
    labels := { session.labels with
      pending := session.labels.pending.push ⟨session.buffer.next, label, span⟩ }
    stats := { session.stats with
      opsEmitted := session.stats.opsEmitted + 1, forwardRefs := session.stats.forwardRefs + 1 }
    journal := (session.journal.push (.emitted session.buffer.next (make placeholder))).push
      (.awaited label session.buffer.next) }

theorem emitTransfer_of_room (h : session.labels.lookup label = none) (hroom : session.buffer.isFull = false)
    (hfull : session.labels.pending.size < session.labels.capacity) :
    emitTransfer make label span session = .ok session.buffer.next (session.awaiting make label span) := by
  rw [emitTransfer, get_bind]
  simp only [h]
  rw [bind_of_ok (emit_of_room hroom)]
  have hroom' : (session.emitted (make placeholder) span.line).labels.pending.size <
      (session.emitted (make placeholder) span.line).labels.capacity := hfull
  exact bind_of_ok (await_of_room hroom')

/-- A transfer goes to the address its label is bound to, or waits for it. -/
theorem emitTransfer_eq_ok {addr : Addr} {next : Session} (h : emitTransfer make label span session = .ok addr next) :
    addr = session.buffer.next ∧ session.buffer.isFull = false ∧
    ((∃ target, session.labels.lookup label = some target ∧
      next = session.counted.emitted (make target) span.line) ∨
    session.labels.lookup label = none ∧ session.labels.pending.size < session.labels.capacity ∧
      next = session.awaiting make label span) := by
  cases hlookup : session.labels.lookup label with
  | some target =>
      rw [emitTransfer_of_bound hlookup] at h
      obtain ⟨hroom, haddr, hnext⟩ := emit_eq_ok h
      exact ⟨haddr, hroom, .inl ⟨target, rfl, hnext⟩⟩
  | none =>
      cases hfull : session.buffer.isFull with
      | true =>
          rw [emitTransfer_of_full hlookup hfull] at h
          cases h
      | false =>
          by_cases hroom : session.labels.pending.size < session.labels.capacity
          · rw [emitTransfer_of_room hlookup hfull hroom] at h
            cases h
            exact ⟨rfl, rfl, .inr ⟨rfl, hroom, rfl⟩⟩
          · rw [emitTransfer_of_table_full hlookup hfull (Nat.not_lt.mp hroom)] at h
            cases h

end Session

end GotoLang
