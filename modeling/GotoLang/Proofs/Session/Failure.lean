import GotoLang.Proofs.Session.Calls
import GotoLang.Proofs.Session.Resolution

/-!
# What a failed call leaves behind

Appending an operation, binding a label and finishing check everything before they change anything. Emitting
a transfer does not. A transfer to a bound label is counted before the buffer is asked for room, and one to an
unbound label is appended before the label table is asked for room. If the table has none, the transfer stays
in the buffer and no record will ever give it a target.

A transfer that was emitted is never lost in this way: its record stays until the session is finished.
-/
namespace GotoLang

namespace Session

/-- The calls that change a session. -/
inductive Call where
  | emit (op : Op) (line : Nat)
  | bind (label : String) (span : Span)
  | transfer (make : Addr → Op) (label : String) (span : Span)
  | finish (slots : Array Variable)

/-- The fault of a call, if there is one, and the session it leaves. -/
def outcome {α : Type} : EStateM.Result EmissionError Session α → Option EmissionError × Session
  | .ok _ session => (none, session)
  | .error e session => (some e, session)

def Call.perform : Call → Session → Option EmissionError × Session
  | .emit op line, session => outcome (Session.emit op line session)
  | .bind label span, session => outcome (Session.bind label span session)
  | .transfer make label span, session => outcome (Session.emitTransfer make label span session)
  | .finish slots, session => outcome (Session.finish slots session)

/-- Buffer, labels and statistics of two sessions are the same. -/
def Same (session after : Session) : Prop :=
  after.buffer = session.buffer ∧ after.labels = session.labels ∧ after.stats = session.stats

/-- A transfer that fails after it has changed something: its label is bound and it was counted, or the
buffer had room for it. -/
def Call.Slips (session : Session) : Call → Prop
  | .transfer _ label _ => session.labels.lookup label ≠ none ∨ session.buffer.isFull = false
  | _ => False

/-- A transfer was appended with the placeholder, and no record was made of it. -/
def stranded (session : Session) (make : Addr → Op) (line : Nat) : Session :=
  session.emitted (make placeholder) line

/-- What a call that slips leaves. -/
def Call.slip (session : Session) : Call → Session
  | .transfer make label span =>
    if (session.labels.lookup label).isSome then session.counted else session.stranded make span.line
  | _ => session

theorem labels_emit (op : Op) (line : Nat) (session : Session) :
    (outcome (Session.emit op line session)).2.labels = session.labels := by
  cases hfull : session.buffer.isFull with
  | true => simp [emit_of_full hfull, outcome]
  | false => simp [emit_of_room hfull, outcome, emitted]

theorem fault_emit {op : Op} {line : Nat} {session after : Session} {e : EmissionError}
    (h : outcome (Session.emit op line session) = (some e, after)) :
    session.buffer.isFull = true ∧ after = session := by
  cases hfull : session.buffer.isFull with
  | true => simp_all [emit_of_full hfull, outcome]
  | false => simp [emit_of_room hfull, outcome] at h

/-- What a failed transfer leaves. -/
theorem fault_transfer {make : Addr → Op} {label : String} {span : Span} {session after : Session}
    {e : EmissionError} (h : outcome (emitTransfer make label span session) = (some e, after)) :
    (session.labels.lookup label ≠ none ∧ after = session.counted) ∨
    (session.labels.lookup label = none ∧ session.buffer.isFull = true ∧ after = session) ∨
    (session.labels.lookup label = none ∧ session.buffer.isFull = false ∧
      session.labels.capacity ≤ session.labels.pending.size ∧
      e = .tooManyReferences session.labels.capacity ∧ after = session.stranded make span.line) := by
  cases hlookup : session.labels.lookup label with
  | some target =>
      rw [emitTransfer_of_bound hlookup] at h
      exact .inl ⟨by simp, (fault_emit h).2⟩
  | none =>
      cases hfull : session.buffer.isFull with
      | true =>
          simp only [emitTransfer_of_full hlookup hfull, outcome, Prod.mk.injEq] at h
          exact .inr (.inl ⟨rfl, rfl, h.2.symm⟩)
      | false =>
          by_cases hroom : session.labels.capacity ≤ session.labels.pending.size
          · simp only [emitTransfer_of_table_full hlookup hfull hroom, outcome, Prod.mk.injEq,
              Option.some.injEq] at h
            exact .inr (.inr ⟨rfl, rfl, hroom, h.1.symm, h.2.symm⟩)
          · simp [emitTransfer_of_room hlookup hfull (Nat.not_le.mp hroom), outcome] at h

theorem fault_bind {label : String} {span : Span} {session after : Session} {e : EmissionError}
    (h : outcome (Session.bind label span session) = (some e, after)) : after = session := by
  cases hget : session.labels.bindings.get? label with
  | some earlier => simp_all [bind_of_bound hget, outcome]
  | none => simp [bind_of_unbound hget, outcome] at h

theorem fault_finish {slots : Array Variable} {session after : Session} {e : EmissionError}
    (h : outcome (Session.finish slots session) = (some e, after)) : after = session := by
  unfold Session.finish at h
  split at h
  · simp_all [outcome]
  · simp [outcome] at h

/-- The session after some calls, failed or not. -/
def performAll (calls : List Call) (session : Session) : Session :=
  calls.foldl (fun session call => (call.perform session).2) session

/-- No call finishes the session; one that tries and fails is none that does. -/
def Unfinished : List Call → Session → Prop
  | [], _ => True
  | call :: rest, session =>
    (∀ slots, call = .finish slots → (call.perform session).1 ≠ none) ∧
      Unfinished rest (call.perform session).2

theorem pending_bind (label : String) (span : Span) (session : Session) :
    (outcome (Session.bind label span session)).2.labels.pending = session.labels.pending := by
  cases hget : session.labels.bindings.get? label with
  | some earlier => simp [bind_of_bound hget, outcome]
  | none => simp [bind_of_unbound hget, outcome, bound]

theorem pending_transfer (make : Addr → Op) (label : String) (span : Span) (session : Session) :
    session.labels.pending.toList <+:
      (outcome (emitTransfer make label span session)).2.labels.pending.toList := by
  cases hlookup : session.labels.lookup label with
  | some target =>
      rw [emitTransfer_of_bound hlookup, labels_emit]
      exact List.prefix_rfl
  | none =>
      cases hfull : session.buffer.isFull with
      | true => simp [emitTransfer_of_full hlookup hfull, outcome]
      | false =>
          by_cases hroom : session.labels.capacity ≤ session.labels.pending.size
          · simp [emitTransfer_of_table_full hlookup hfull hroom, outcome, emitted]
          · simp [emitTransfer_of_room hlookup hfull (Nat.not_le.mp hroom), outcome, awaiting]

/-- Whatever is called, no record is lost before the session is finished. -/
theorem pending_perform {call : Call} {session : Session}
    (h : ∀ slots, call = .finish slots → (call.perform session).1 ≠ none) :
    session.labels.pending.toList <+: (call.perform session).2.labels.pending.toList := by
  cases call with
  | emit op line => simp [Call.perform, labels_emit]
  | bind label span => simp [Call.perform, pending_bind]
  | transfer make label span => exact pending_transfer make label span session
  | finish slots =>
      obtain ⟨e, he⟩ := Option.ne_none_iff_exists'.mp (h slots rfl)
      have hsame : ((Call.finish slots).perform session).2 = session :=
        fault_finish (e := e) (by rw [← he]; rfl)
      simp [hsame]

theorem pending_performAll {calls : List Call} {session : Session} (h : Unfinished calls session) :
    session.labels.pending.toList <+: (performAll calls session).labels.pending.toList := by
  induction calls generalizing session with
  | nil => exact List.prefix_rfl
  | cons call rest ih => exact (pending_perform h.1).trans (ih h.2)

/-- The last record for the transfer of some record. -/
theorem exists_last_record {pending : List LabelTable.Reference} {r : LabelTable.Reference}
    (hr : r ∈ pending) : ∃ before last behind, pending = before ++ last :: behind ∧ last.slot = r.slot ∧
      ∀ r' ∈ behind, r'.slot ≠ last.slot := by
  have hfound : (pending.reverse.find? (·.slot = r.slot)).isSome := by
    simpa using ⟨r, hr, rfl⟩
  obtain ⟨last, hlast⟩ := Option.isSome_iff_exists.mp hfound
  obtain ⟨hslot, behind, before, hsplit, hbehind⟩ := List.find?_eq_some_iff_append.mp hlast
  have hslot : last.slot = r.slot := by simpa using hslot
  refine ⟨before.reverse, last, behind.reverse, ?_, hslot, ?_⟩
  · simpa using congrArg List.reverse hsplit
  · intro r' hr'
    rw [hslot]
    simpa using hbehind r' (List.mem_reverse.mp hr')

/-- Finishing gives every recorded transfer the target of a label, that of the last record for it. -/
theorem target_of_finish {slots : Array Variable} {session last : Session} {program : Program}
    (h : Session.finish slots session = .ok program last) {r : LabelTable.Reference}
    (hr : r ∈ session.labels.pending.toList) : ∃ r' ∈ session.labels.pending.toList,
      r'.slot = r.slot ∧ ∃ addr conditional, session.labels.lookup r'.label = some addr ∧
        program.ops[r.slot.toNat]? = some (.transfer conditional addr) := by
  unfold Session.finish at h
  split at h
  · cases h
  · next count labels buffer hresolve =>
      cases h
      obtain ⟨-, -, -, hresolved⟩ := LabelTable.resolve_eq_ok hresolve
      obtain ⟨before, last, behind, hsplit, hslot, hlast⟩ := exists_last_record hr
      obtain ⟨addr, conditional, old, hlookup, -, hget⟩ :=
        hresolved.recorded before last behind hsplit hlast
      refine ⟨last, ?_, hslot, addr, conditional, hlookup, ?_⟩
      · rw [hsplit]
        exact List.mem_append_right _ List.mem_cons_self
      · rw [← hslot]
        exact hget

theorem not_same_counted (session : Session) : ¬ Same session session.counted := by
  intro h
  have hrefs := congrArg Stats.backwardRefs h.2.2
  simp [counted] at hrefs

theorem not_same_stranded (session : Session) (make : Addr → Op) (line : Nat) :
    ¬ Same session (session.stranded make line) := by
  intro h
  have hops := congrArg Stats.opsEmitted h.2.2
  simp [stranded, emitted] at hops

theorem fault_perform {call : Call} {session after : Session} {e : EmissionError}
    (h : call.perform session = (some e, after)) :
    (¬ call.Slips session ∧ after = session) ∨
      (call.Slips session ∧ after = call.slip session ∧ ¬ Same session after) := by
  cases call with
  | emit op line => exact .inl ⟨id, (fault_emit h).2⟩
  | bind label span => exact .inl ⟨id, fault_bind h⟩
  | finish slots => exact .inl ⟨id, fault_finish h⟩
  | transfer make label span =>
      rcases fault_transfer h with ⟨hbound, rfl⟩ | ⟨hlookup, hfull, rfl⟩ | ⟨hlookup, hroom, -, -, rfl⟩
      · refine .inr ⟨.inl hbound, ?_, not_same_counted session⟩
        simp [Call.slip, Option.isSome_iff_ne_none, hbound]
      · refine .inl ⟨?_, rfl⟩
        simp [Call.Slips, hlookup, hfull]
      · refine .inr ⟨.inr hroom, ?_, not_same_stranded session make span.line⟩
        simp [Call.slip, hlookup]

/-- The record of a transfer that was emitted before its label is still there when the session is
finished. -/
theorem recorded_until_finish {make : Addr → Op} {label : String} {span : Span} {slot : Addr}
    {session next : Session} (hlookup : session.labels.lookup label = none)
    (h : emitTransfer make label span session = .ok slot next) {calls : List Call}
    (hcalls : Unfinished calls next) :
    ⟨slot, label, span⟩ ∈ (performAll calls next).labels.pending.toList := by
  apply (pending_performAll hcalls).subset
  obtain ⟨rfl, -, ⟨target, hbound, -⟩ | ⟨-, -, rfl⟩⟩ := emitTransfer_eq_ok h
  · rw [hlookup] at hbound
    cases hbound
  · simp [awaiting]

/-- A failed call leaves the session as it was, unless it is a transfer that slips; then buffer, labels and
statistics are not what they were. A transfer that was emitted has a record until the session is finished,
and then gets the address of a label. -/
theorem failed_call_same_or_slips (session : Session) :
    (∀ (call : Call) (e : EmissionError) (after : Session), call.perform session = (some e, after) →
      (¬ call.Slips session → after = session) ∧
      (call.Slips session → after = call.slip session ∧ ¬ Same session after)) ∧
    ∀ (make : Addr → Op) (label : String) (span : Span) (slot : Addr) (next : Session),
      session.labels.lookup label = none → emitTransfer make label span session = .ok slot next →
      ∀ (calls : List Call) (slots : Array Variable) (program : Program) (last : Session),
        Unfinished calls next → Session.finish slots (performAll calls next) = .ok program last →
        ∃ name addr kind, (performAll calls next).labels.lookup name = some addr ∧
          program.ops[slot.toNat]? = some (.transfer kind addr) := by
  constructor
  · intro call e after h
    rcases fault_perform h with ⟨hslips, hsame⟩ | ⟨hslips, hslip⟩
    · exact ⟨fun _ => hsame, fun h => absurd h hslips⟩
    · exact ⟨fun h => absurd hslips h, fun _ => hslip⟩
  · intro make label span slot next hlookup h calls slots program last hcalls hfinish
    have hrecord := recorded_until_finish hlookup h hcalls
    obtain ⟨r, -, -, addr, kind, haddr, hop⟩ := target_of_finish hfinish hrecord
    exact ⟨r.label, addr, kind, haddr, hop⟩

/-- With room for one record, the second of two transfers fails and leaves its placeholder. Once the first
label is bound the session can be finished, and the program still has the placeholder in it. -/
theorem transfer_strands_placeholder : ∃ session after program last,
    session = performAll [.transfer .jump "a" ⟨1, 1⟩] (.start none 1) ∧
    (Call.transfer .jump "b" ⟨2, 1⟩).perform session = (some (.tooManyReferences 1), after) ∧
    ¬ Same session after ∧
    Session.finish #[] (performAll [.bind "a" ⟨3, 1⟩] after) = .ok program last ∧
    program.ops = #[.jump 2, .jump placeholder] := by
  refine ⟨_, _, _, _, rfl, rfl, ?_, rfl, rfl⟩
  exact not_same_stranded _ .jump 2

end Session

end GotoLang
