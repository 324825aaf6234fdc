import GotoLang.Proofs.Session.Resolution
import Mathlib.Data.List.Nodup

/-!
# Bindings stay

A label table is changed by three calls: recording a reference, binding a label and resolving. After any of
them, whether they fail or not, the table can be described by the calls alone. The first call that binds a
label succeeds and decides where the label stands from then on, and labels are listed in the order of these
calls. Waiting references come and go, but there are never more of them than the capacity.

The map and the list of labels are changed one after the other. That they have the same labels after every call
is what makes the list complete: a label that is not in the map would be left out when the list is read.
-/
namespace GotoLang

namespace LabelTable

/-- The calls that change a table. Each call that resolves has a buffer of its own. -/
inductive Call where
  | record (slot : Addr) (label : String) (span : Span)
  | bind (label : String) (addr : Addr) (span : Span)
  | resolve (buffer : EmissionBuffer)

/-- The fault of a call, if there is one, and the table it leaves. -/
def outcome : EStateM.Result EmissionError LabelTable Unit → Option EmissionError × LabelTable
  | .ok () table => (none, table)
  | .error e table => (some e, table)

def Call.perform : Call → LabelTable → Option EmissionError × LabelTable
  | .record slot label span, table => outcome (LabelTable.record slot label span table)
  | .bind label addr span, table => outcome (LabelTable.bind label addr span table)
  | .resolve buffer, table =>
    match table.resolveInPlace buffer with
    | (.ok _, next, _) => (none, next)
    | (.error e, next, _) => (some e, next)

/-- The table after some calls, failed or not. -/
def performAll (calls : List Call) (table : LabelTable) : LabelTable :=
  calls.foldl (fun table call => (call.perform table).2) table

/-- The label that a call wants to bind, and how. -/
def Call.binding? : Call → Option (String × Binding)
  | .bind label addr span => some (label, ⟨addr, span⟩)
  | _ => none

/-- The bindings that were asked for, in order. -/
def requests (calls : List Call) : List (String × Binding) :=
  calls.filterMap Call.binding?

/-- The first binding that was asked for with a label. -/
def first? (calls : List Call) (label : String) : Option Binding :=
  (requests calls).lookup label

/-- What is known of a table after some calls on a new one with this capacity. -/
structure Consistent (capacity : Nat) (calls : List Call) (table : LabelTable) : Prop where
  room : table.pending.size ≤ capacity
  /-- A label stands where the first call for it wanted it. -/
  lookup : ∀ label, table.lookup label = (first? calls label).map Binding.addr
  /-- A label that is bound now stands there whatever is called afterwards. -/
  permanent : ∀ label addr span next later, LabelTable.bind label addr span table = .ok () next →
    (performAll (calls ++ .bind label addr span :: later) { capacity }).lookup label = some addr
  /-- The list has the labels of the map. -/
  coherent : table.Coherent
  /-- Labels are listed in the order of their first calls, none of them twice. -/
  order : table.marks.toList.map Mark.name = ((requests calls).map Prod.fst).eraseDups
  distinct : (table.marks.toList.map Mark.name).Nodup
  /-- The bound labels are listed, with their addresses. -/
  listed : ∀ label addr, ⟨label, addr⟩ ∈ table.marks ↔ table.lookup label = some addr
  /-- No label of the list is lost when it is looked up in the map. -/
  complete : table.marks.toList.map Mark.name = table.order.toList
  /-- Binding fails for a bound label and reports where it was bound first. -/
  duplicate : ∀ label addr span,
    ((∃ e after, LabelTable.bind label addr span table = .error e after) ↔ table.lookup label ≠ none) ∧
    ∀ e after, LabelTable.bind label addr span table = .error e after →
      ∃ first, first? calls label = some first ∧ e = .duplicateLabel label first.span span
  /-- A failed call changes nothing. -/
  unchanged : ∀ (call : Call) (e : EmissionError) (after : LabelTable),
    call.perform table = (some e, after) → after = table

/-- The part of this that each call keeps. -/
structure Tracks (capacity : Nat) (calls : List Call) (table : LabelTable) : Prop where
  limit : table.capacity = capacity
  room : table.pending.size ≤ capacity
  found : ∀ label, table.bindings.get? label = first? calls label
  coherent : table.Coherent
  order : table.order.toList = ((requests calls).map Prod.fst).eraseDups
  distinct : table.order.toList.Nodup

section
variable {capacity : Nat} {calls : List Call} {table : LabelTable}

theorem requests_append (calls more : List Call) :
    requests (calls ++ more) = requests calls ++ requests more :=
  List.filterMap_append

theorem first?_append (calls more : List Call) (label : String) :
    first? (calls ++ more) label = (first? calls label).or (first? more label) := by
  rw [first?, requests_append, List.lookup_append]
  rfl

/-- A call that binds a label is the first one for this label and no call for any other. -/
theorem first?_bind (label : String) (addr : Addr) (span : Span) (later : List Call) (name : String) :
    first? (.bind label addr span :: later) name =
      if label = name then some ⟨addr, span⟩ else first? later name := by
  show List.lookup name ((label, _) :: requests later) = _
  rw [List.lookup_cons]
  by_cases hname : label = name
  · simp [hname]
  · have hother : (name == label) = false := beq_eq_false_iff_ne.mpr (Ne.symm hname)
    simp only [hother, if_neg hname, first?]

theorem mem_labels_iff {label : String} :
    label ∈ (requests calls).map Prod.fst ↔ first? calls label ≠ none := by
  have hnone : first? calls label = none ↔ ∀ entry ∈ requests calls, entry.1 ≠ label :=
    Dictionary.get?_eq_none_iff
  rw [Ne, hnone]
  simp

theorem eraseDups_concat (labels : List String) (label : String) :
    (labels ++ [label]).eraseDups = labels.eraseDups ++ if label ∈ labels then [] else [label] := by
  rw [List.eraseDups_append]
  congr 1
  by_cases hmem : label ∈ labels
  · simp [List.removeAll, hmem]
  · have hnew : [label].removeAll labels = [label] := by simp [List.removeAll, hmem]
    rw [hnew, if_neg hmem]
    rfl

/-- Calls that bind nothing leave what is known of the labels. -/
theorem Tracks.other (h : Tracks capacity calls table) {call : Call} (hcall : call.binding? = none)
    {next : LabelTable} (hcapacity : next.capacity = table.capacity) (hbindings : next.bindings = table.bindings)
    (horder : next.order = table.order) (hroom : next.pending.size ≤ capacity) :
    Tracks capacity (calls ++ [call]) next := by
  have hrequests : requests (calls ++ [call]) = requests calls := by
    simp [requests, hcall]
  refine ⟨hcapacity.trans h.limit, hroom, ?_, ?_, ?_, ?_⟩
  · intro label
    rw [first?, hrequests, hbindings]
    exact h.found label
  · intro label
    rw [horder, LabelTable.lookup, hbindings]
    exact h.coherent label
  · rw [hrequests, horder]
    exact h.order
  · rw [horder]
    exact h.distinct

theorem labels_bind (label : String) (addr : Addr) (span : Span) :
    (requests (calls ++ [.bind label addr span])).map Prod.fst = (requests calls).map Prod.fst ++ [label] := by
  rw [requests_append, List.map_append]
  rfl

/-- A call for a bound label is not the first one for it. -/
theorem Tracks.bound (h : Tracks capacity calls table) {label : String} {earlier : Binding}
    (hget : table.bindings.get? label = some earlier) (addr : Addr) (span : Span) :
    Tracks capacity (calls ++ [.bind label addr span]) table := by
  have hfirst := h.found label
  rw [hget] at hfirst
  have hmem : label ∈ (requests calls).map Prod.fst := mem_labels_iff.mpr (by simp [← hfirst])
  refine ⟨h.limit, h.room, ?_, h.coherent, ?_, h.distinct⟩
  · intro name
    rw [first?_append, first?_bind]
    by_cases hname : label = name
    · rw [← hname, ← hfirst, Option.some_or]
      exact hget
    · rw [if_neg hname]
      exact (h.found name).trans (Option.or_none ..).symm
  · rw [labels_bind, eraseDups_concat, if_pos hmem, List.append_nil]
    exact h.order

/-- The first call for a label adds it to the map and to the list. -/
theorem Tracks.unbound (h : Tracks capacity calls table) {label : String} {addr : Addr} {span : Span}
    {next : LabelTable} (hbind : LabelTable.bind label addr span table = .ok () next) :
    Tracks capacity (calls ++ [.bind label addr span]) next := by
  have hcoherent := h.coherent.bind hbind
  obtain ⟨hnew, -⟩ := h.coherent.marks_of_bind hbind
  obtain ⟨hget, rfl⟩ := bind_eq_ok_iff.mp hbind
  have hfirst := h.found label
  rw [hget] at hfirst
  have hmem : label ∉ (requests calls).map Prod.fst := fun hmem => mem_labels_iff.mp hmem hfirst.symm
  refine ⟨h.limit, h.room, ?_, hcoherent, ?_, ?_⟩
  · intro name
    rw [first?_append, first?_bind, Dictionary.get?_insert, h.found]
    by_cases hname : label = name
    · rw [if_pos hname, if_pos hname, ← hname, ← hfirst, Option.none_or]
    · rw [if_neg hname, if_neg hname]
      exact (Option.or_none ..).symm
  · rw [labels_bind, eraseDups_concat, if_neg hmem, ← h.order]
    exact Array.toList_push
  · rw [Array.toList_push, List.nodup_append_comm]
    exact List.nodup_cons.mpr ⟨hnew, h.distinct⟩

/-- Resolving changes nothing, or no reference waits any longer. -/
theorem resolveInPlace_cases (table : LabelTable) (buffer : EmissionBuffer) :
    (∃ e, table.resolveInPlace buffer = (.error e, table, buffer)) ∨
    ∃ count buffer', table.resolveInPlace buffer = (.ok count, { table with pending := #[] }, buffer') := by
  cases hcheck : table.pending.toList.mapM (table.resolveOne buffer) with
  | error e => exact .inl ⟨e, (resolve_of_unchecked hcheck).2⟩
  | ok entries =>
      obtain ⟨buffer', -, hplace, -⟩ := resolve_of_checked hcheck
      exact .inr ⟨_, buffer', hplace⟩

theorem Tracks.perform (h : Tracks capacity calls table) (call : Call) :
    Tracks capacity (calls ++ [call]) (call.perform table).2 := by
  cases call with
  | record slot label span =>
      rw [Call.perform]
      by_cases hroom : table.pending.size < table.capacity
      · rw [record_of_room hroom]
        refine h.other rfl rfl rfl rfl ?_
        rw [h.limit] at hroom
        show (table.pending.push _).size ≤ capacity
        rw [Array.size_push]
        omega
      · rw [record_of_full (Nat.not_lt.mp hroom)]
        exact h.other rfl rfl rfl rfl h.room
  | bind label addr span =>
      rw [Call.perform]
      cases hget : table.bindings.get? label with
      | some earlier =>
          rw [bind_of_bound hget]
          exact h.bound hget addr span
      | none =>
          rw [bind_of_unbound hget]
          exact h.unbound (bind_of_unbound hget)
  | resolve buffer =>
      rcases resolveInPlace_cases table buffer with ⟨e, hplace⟩ | ⟨count, buffer', hplace⟩
      · rw [Call.perform, hplace]
        exact h.other rfl rfl rfl rfl h.room
      · rw [Call.perform, hplace]
        exact h.other rfl rfl rfl rfl (Nat.zero_le capacity)

theorem Tracks.performAll (h : Tracks capacity calls table) (more : List Call) :
    Tracks capacity (calls ++ more) (performAll more table) := by
  induction more generalizing calls table with
  | nil => rwa [List.append_nil]
  | cons call rest ih =>
      rw [List.append_cons]
      exact ih (h.perform call)

theorem tracks_performAll (capacity : Nat) (calls : List Call) :
    Tracks capacity calls (LabelTable.performAll calls { capacity }) :=
  have hnew : Tracks capacity [] { capacity } := ⟨rfl, Nat.zero_le capacity, fun _ => rfl, coherent_new capacity, rfl, .nil⟩
  hnew.performAll calls

theorem unchanged_of_fault {call : Call} {e : EmissionError} {after : LabelTable}
    (h : call.perform table = (some e, after)) : after = table := by
  cases call with
  | record slot label span =>
      rw [Call.perform] at h
      cases hrecord : LabelTable.record slot label span table <;> rw [hrecord] at h <;> cases h
      exact (record_eq_error_iff.mp hrecord).2.2
  | bind label addr span =>
      rw [Call.perform] at h
      cases hbind : LabelTable.bind label addr span table <;> rw [hbind] at h <;> cases h
      exact (bind_eq_error_iff.mp hbind).2
  | resolve buffer =>
      rcases resolveInPlace_cases table buffer with ⟨e', hplace⟩ | ⟨count, buffer', hplace⟩ <;>
        rw [Call.perform, hplace] at h <;> cases h
      rfl

end

/-- After any calls on a new table, failed or not, the table is consistent with them. -/
theorem bindings_permanent (capacity : Nat) (calls : List Call) :
    Consistent capacity calls (performAll calls { capacity }) := by
  have h := tracks_performAll capacity calls
  have hlookup : ∀ label, (performAll calls { capacity }).lookup label =
      (first? calls label).map Binding.addr := by
    intro label
    rw [lookup, h.found]
  constructor
  case room => exact h.room
  case lookup => exact hlookup
  case permanent =>
    intro label addr span next later hbind
    have hnone := (bind_eq_ok_iff.mp hbind).1
    rw [h.found] at hnone
    rw [lookup, (tracks_performAll capacity _).found, first?_append, hnone, first?_bind, if_pos rfl]
    rfl
  case coherent => exact h.coherent
  case order => rw [h.coherent.names_marks, h.order]
  case distinct =>
    rw [h.coherent.names_marks]
    exact h.distinct
  case listed => exact fun _ _ => h.coherent.mem_marks_iff
  case complete => exact h.coherent.names_marks
  case duplicate =>
    intro label addr span
    simp only [bind_eq_error_iff, h.found, hlookup]
    constructor
    · cases first? calls label <;> simp
    · rintro e after ⟨hfirst, -⟩
      exact hfirst
  case unchanged => exact fun _ _ _ => unchanged_of_fault

/-- Room for one reference: the second one is refused, a label is bound twice, and one reference is resolved
before the other label is bound. -/
example :
    let calls : List Call := [.record 0 "b" ⟨1, 1⟩, .record 1 "a" ⟨2, 1⟩, .bind "b" 3 ⟨3, 1⟩, .bind "b" 5 ⟨4, 1⟩,
      .resolve { ops := #[.jump placeholder] }, .bind "a" 7 ⟨5, 1⟩]
    performAll calls { capacity := 1 } =
      { capacity := 1, bindings := ⟨[("a", ⟨7, ⟨5, 1⟩⟩), ("b", ⟨3, ⟨3, 1⟩⟩)]⟩, order := #["b", "a"] } := by
  decide

end LabelTable

end GotoLang
