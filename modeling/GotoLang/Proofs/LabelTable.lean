import GotoLang.LabelTable
import GotoLang.Proofs.Faults
import Mathlib.Data.List.Basic

/-!
# One call on a label table

Recording a reference and binding a label check first and change the table then, so after a fault the table is
what it was. Binding changes the map and the list of labels one after the other. After any number of calls
both know the same labels, and then the list can be read with the addresses of the map.
-/
namespace GotoLang

namespace LabelTable

variable {table table' : LabelTable} {slot addr : Addr} {label name : String} {span : Span}

theorem record_of_full (h : table.capacity ≤ table.pending.size) :
    record slot label span table = .error (.tooManyReferences table.capacity) table := by
  rw [record, get_bind, get_bind, if_pos h]
  rfl

theorem record_of_room (h : table.pending.size < table.capacity) :
    record slot label span table =
      .ok () { table with pending := table.pending.push ⟨slot, label, span⟩ } := by
  rw [record, get_bind, get_bind, if_neg (Nat.not_le.mpr h)]
  rfl

theorem bind_of_bound {earlier : Binding} (h : table.bindings.get? label = some earlier) :
    bind label addr span table = .error (.duplicateLabel label earlier.span span) table := by
  rw [bind, get_bind]
  simp only [h]
  rfl

theorem bind_of_unbound (h : table.bindings.get? label = none) :
    bind label addr span table = .ok ()
      { table with
        bindings := table.bindings.insert label ⟨addr, span⟩
        order := table.order.push label } := by
  rw [bind, get_bind]
  simp only [h]
  rfl

theorem bind_eq_ok_iff : bind label addr span table = .ok () table' ↔
    table.bindings.get? label = none ∧ table' =
      { table with
        bindings := table.bindings.insert label ⟨addr, span⟩
        order := table.order.push label } := by
  cases h : table.bindings.get? label with
  | some earlier => simp [bind_of_bound h]
  | none => simp [bind_of_unbound h, eq_comm]

theorem bind_eq_error_iff {e : EmissionError} : bind label addr span table = .error e table' ↔
    (∃ earlier, table.bindings.get? label = some earlier ∧ e = .duplicateLabel label earlier.span span) ∧
      table' = table := by
  cases h : table.bindings.get? label with
  | some earlier => simp [bind_of_bound h, eq_comm]
  | none => simp [bind_of_unbound h]

theorem record_eq_error_iff {e : EmissionError} : record slot label span table = .error e table' ↔
    table.capacity ≤ table.pending.size ∧ e = .tooManyReferences table.capacity ∧ table' = table := by
  by_cases h : table.pending.size < table.capacity
  · simp [record_of_room h, Nat.not_le.mpr h]
  · simp [record_of_full (Nat.not_lt.mp h), Nat.not_lt.mp h, eq_comm]

theorem lookup_eq_none_iff : table.lookup label = none ↔ table.bindings.get? label = none :=
  Option.map_eq_none_iff

/-- A new binding is found, and the others are found as before. -/
theorem lookup_of_bind (h : bind label addr span table = .ok () table') (name : String) :
    table'.lookup name = if label = name then some addr else table.lookup name := by
  obtain ⟨-, rfl⟩ := bind_eq_ok_iff.mp h
  rw [lookup, Dictionary.get?_insert]
  split <;> rfl

theorem lookup_bound (h : bind label addr span table = .ok () table') (name : String) (found : Addr)
    (hname : table.lookup name = some found) : table'.lookup name = some found := by
  have hne : label ≠ name := by
    rintro rfl
    rw [lookup_eq_none_iff.mpr (bind_eq_ok_iff.mp h).1] at hname
    cases hname
  rw [lookup_of_bind h, if_neg hne, hname]

/-- The list names the labels that are bound. -/
def Coherent (table : LabelTable) : Prop :=
  ∀ label, label ∈ table.order ↔ table.lookup label ≠ none

theorem coherent_new (capacity : Nat) : Coherent { capacity } := by
  intro label
  simp [lookup, Dictionary.get?]

theorem Coherent.bind (h : table.Coherent) (hbind : bind label addr span table = .ok () table') :
    table'.Coherent := by
  intro name
  rw [lookup_of_bind hbind]
  obtain ⟨-, rfl⟩ := bind_eq_ok_iff.mp hbind
  rw [Array.mem_push, h name]
  by_cases hname : label = name
  · simp [hname]
  · simp [hname, Ne.symm hname]

/-- No listed label is left out when the list is read. -/
theorem Coherent.names_marks (h : table.Coherent) : table.marks.toList.map Mark.name = table.order.toList := by
  have hread : ∀ name ∈ table.order.toList,
      ((table.lookup name).map (Mark.mk name)).map Mark.name = some name := by
    intro name hname
    obtain ⟨addr, haddr⟩ := Option.ne_none_iff_exists'.mp ((h name).mp (Array.mem_toList_iff.mp hname))
    rw [haddr]
    rfl
  rw [marks, Array.toList_filterMap, List.map_filterMap, List.filterMap_congr hread]
  exact List.filterMap_some

theorem Coherent.mem_marks_iff (h : table.Coherent) :
    ⟨label, addr⟩ ∈ table.marks ↔ table.lookup label = some addr := by
  rw [marks, Array.mem_filterMap]
  constructor
  · rintro ⟨name, -, hmark⟩
    obtain ⟨found, hfound, hmark⟩ := Option.map_eq_some_iff.mp hmark
    cases hmark
    exact hfound
  · intro hlookup
    exact ⟨label, (h label).mpr (by simp [hlookup]), by rw [hlookup]; rfl⟩

/-- A new label is listed behind the others. -/
theorem Coherent.marks_of_bind (h : table.Coherent)
    (hbind : LabelTable.bind label addr span table = .ok () table') :
    label ∉ table.order.toList ∧ table'.marks.toList = table.marks.toList ++ [⟨label, addr⟩] := by
  have hlookup := lookup_of_bind hbind
  obtain ⟨hnone, rfl⟩ := bind_eq_ok_iff.mp hbind
  have hnew : label ∉ table.order.toList := by
    rw [Array.mem_toList_iff, h label, lookup_eq_none_iff.mpr hnone]
    exact fun hne => hne rfl
  refine ⟨hnew, ?_⟩
  simp only [marks, hlookup, Array.toList_filterMap, Array.toList_push, List.filterMap_append]
  congr 1
  · -- The labels listed before are others, so they are read as before.
    apply List.filterMap_congr
    intro name hname
    have hne : label ≠ name := fun heq => hnew (heq ▸ hname)
    rw [if_neg hne]
  · simp

end LabelTable

end GotoLang
