import GotoLang.Proofs.Lowering.Resolve

/-!
# Resolving is all or nothing

All records are checked before the first target is written. The check of a record is about a label and an
operation that writing never changes: a transfer stays a transfer of its kind when it is sent elsewhere. So
once the records were checked no write can fail, and a fault is always found before anything was written.

To say this, resolving is told a second time with the buffer changed in place. There a fault between two
writes would leave the first of them behind.
-/
namespace GotoLang

namespace Op

/-- A transfer of either kind. -/
def transfer (conditional : Bool) (target : Addr) : Op :=
  if conditional then jumpIf target else jump target

theorem retarget?_transfer (conditional : Bool) (old target : Addr) :
    retarget? target (transfer conditional old) = some (transfer conditional target) := by
  cases conditional <;> rfl

theorem eq_transfer_of_target? {op : Op} {target : Addr} (h : op.target? = some target) :
    ∃ conditional, op = transfer conditional target := by
  cases op with
  | jump _ => cases h; exact ⟨false, rfl⟩
  | jumpIf _ => cases h; exact ⟨true, rfl⟩
  | _ => cases h

theorem target?_transfer (conditional : Bool) (target : Addr) :
    (transfer conditional target).target? = some target := by
  cases conditional <;> rfl

theorem kind_of_transfer_eq {conditional conditional' : Bool} {target target' : Addr}
    (h : transfer conditional target = transfer conditional' target') : conditional = conditional' := by
  cases conditional <;> cases conditional' <;> simp_all [transfer]

end Op

namespace LabelTable

/-- The operation at an address is a transfer of this kind. -/
def Transfers (buffer : EmissionBuffer) (slot : Addr) (conditional : Bool) : Prop :=
  ∃ target, buffer.get? slot = some (.transfer conditional target)

/-- Why a record cannot be resolved: its label is not bound, or nothing at its address can be sent
anywhere. -/
inductive Unresolvable (table : LabelTable) (buffer : EmissionBuffer) (r : Reference) :
    EmissionError → Prop
  | unbound : (∀ entry ∈ table.bindings.entries, entry.1 ≠ r.label) →
      Unresolvable table buffer r (.undefinedLabel r.label r.span)
  | misplaced : (∃ entry ∈ table.bindings.entries, entry.1 = r.label) →
      (∀ conditional, ¬ Transfers buffer r.slot conditional) →
      Unresolvable table buffer r (.notATransfer r.slot)

/-- Write targets one after the other; after a fault, those before it are written. -/
def writeInPlace : List (Addr × Addr) → EmissionBuffer → Except EmissionError Unit × EmissionBuffer
  | [], buffer => (.ok (), buffer)
  | (slot, addr) :: rest, buffer =>
    match buffer.patch slot addr with
    | .error e => (.error e, buffer)
    | .ok buffer => writeInPlace rest buffer

/-- Resolve with the table and the buffer changed in place: the states at the end, whatever happened. -/
def resolveInPlace (table : LabelTable) (buffer : EmissionBuffer) :
    Except EmissionError Nat × LabelTable × EmissionBuffer :=
  match table.pending.toList.mapM (table.resolveOne buffer) with
  | .error e => (.error e, table, buffer)
  | .ok resolved =>
    match writeInPlace resolved buffer with
    | (.error e, buffer) => (.error e, table, buffer)
    | (.ok (), buffer) => (.ok resolved.length, { table with pending := #[] }, buffer)

/-- A buffer after the records of a table were resolved against another one. -/
structure Resolved (table : LabelTable) (buffer buffer' : EmissionBuffer) : Prop where
  /-- A recorded transfer goes where the label of the last record for it stands. -/
  recorded : ∀ before r behind, table.pending.toList = before ++ r :: behind →
    (∀ r' ∈ behind, r'.slot ≠ r.slot) → ∃ addr conditional old, table.lookup r.label = some addr ∧
      buffer.get? r.slot = some (.transfer conditional old) ∧
      buffer'.get? r.slot = some (.transfer conditional addr)
  others : ∀ i, (∀ r ∈ table.pending, r.slot.toNat ≠ i) → buffer'.ops[i]? = buffer.ops[i]?
  lines : buffer'.lines = buffer.lines
  capacity : buffer'.capacity = buffer.capacity

theorem lookup_eq_none (table : LabelTable) (label : String) :
    table.lookup label = none ↔ ∀ entry ∈ table.bindings.entries, entry.1 ≠ label := by
  rw [lookup_eq_none_iff, Dictionary.get?_eq_none_iff]

theorem transfers_iff (buffer : EmissionBuffer) (slot : Addr) :
    ((buffer.get? slot).bind Op.target?).isSome ↔ ∃ conditional, Transfers buffer slot conditional := by
  constructor
  · intro h
    obtain ⟨target, ht⟩ := Option.isSome_iff_exists.mp h
    obtain ⟨op, hop, htarget⟩ := Option.bind_eq_some_iff.mp ht
    obtain ⟨conditional, rfl⟩ := Op.eq_transfer_of_target? htarget
    exact ⟨conditional, target, hop⟩
  · rintro ⟨conditional, target, hop⟩
    simp [hop, Op.target?_transfer]

/-- The check finds the fault of a record. -/
theorem resolveOne_eq_error_iff {table : LabelTable} {buffer : EmissionBuffer} {r : Reference}
    {e : EmissionError} : table.resolveOne buffer r = .error e ↔ Unresolvable table buffer r e := by
  unfold resolveOne
  constructor
  · intro h
    split at h
    · next hnone =>
        cases h
        exact .unbound ((lookup_eq_none table r.label).mp hnone)
    · next addr hsome =>
        split at h
        · cases h
        · next hplace =>
            cases h
            refine .misplaced ?_ ?_
            · by_contra hunbound
              have hnone := (lookup_eq_none table r.label).mpr fun b hb he => hunbound ⟨b, hb, he⟩
              simp [hsome] at hnone
            · intro conditional ht
              exact hplace ((transfers_iff buffer r.slot).mpr ⟨conditional, ht⟩)
  · intro h
    cases h with
    | unbound hunbound =>
        simp [(lookup_eq_none table r.label).mpr hunbound]
    | misplaced hbound hplace =>
        obtain ⟨entry, hmem, hlabel⟩ := hbound
        have hne : table.lookup r.label ≠ none := fun hnone =>
          (lookup_eq_none table r.label).mp hnone entry hmem hlabel
        obtain ⟨addr, haddr⟩ := Option.ne_none_iff_exists'.mp hne
        have hno : ¬ ((buffer.get? r.slot).bind Op.target?).isSome := fun hsome =>
          have ⟨conditional, ht⟩ := (transfers_iff buffer r.slot).mp hsome
          hplace conditional ht
        simp only [haddr, if_neg hno]

/-- A buffer after targets were written into another one. -/
structure Written (entries : List (Addr × Addr)) (buffer buffer' : EmissionBuffer) : Prop where
  last : ∀ before entry behind, entries = before ++ entry :: behind →
    (∀ entry' ∈ behind, entry'.1 ≠ entry.1) → ∀ conditional, Transfers buffer entry.1 conditional →
      buffer'.get? entry.1 = some (.transfer conditional entry.2)
  others : ∀ i, (∀ entry ∈ entries, entry.1.toNat ≠ i) → buffer'.ops[i]? = buffer.ops[i]?
  lines : buffer'.lines = buffer.lines
  capacity : buffer'.capacity = buffer.capacity

/-- A transfer can be sent anywhere; it keeps its kind, and everything else is left. -/
theorem patch_of_transfers {buffer : EmissionBuffer} {slot : Addr} {conditional : Bool}
    (h : Transfers buffer slot conditional) (addr : Addr) : ∃ buffer',
      buffer.patch slot addr = .ok buffer' ∧ buffer'.get? slot = some (.transfer conditional addr) ∧
      (∀ i, slot.toNat ≠ i → buffer'.ops[i]? = buffer.ops[i]?) ∧ buffer'.lines = buffer.lines ∧
      buffer'.capacity = buffer.capacity := by
  obtain ⟨target, hget⟩ := h
  have hlt : slot.toNat < buffer.ops.size := (Array.getElem?_eq_some_iff.mp hget).1
  refine ⟨{ buffer with ops := buffer.ops.setIfInBounds slot.toNat (.transfer conditional addr) },
    ?_, ?_, ?_, rfl, rfl⟩
  · simp [EmissionBuffer.patch, hget, Op.retarget?_transfer]
  · simp [EmissionBuffer.get?, hlt]
  · intro i hi
    simp [hi]

theorem Transfers.patch {buffer buffer' : EmissionBuffer} {slot other addr : Addr}
    {conditional kind : Bool} (h : Transfers buffer other kind)
    (hslot : Transfers buffer slot conditional)
    (hget : buffer'.get? slot = some (.transfer conditional addr))
    (hothers : ∀ i, slot.toNat ≠ i → buffer'.ops[i]? = buffer.ops[i]?) :
    Transfers buffer' other kind := by
  by_cases hsame : slot = other
  · subst hsame
    obtain ⟨target, ht⟩ := h
    obtain ⟨target', ht'⟩ := hslot
    rw [ht] at ht'
    rw [Op.kind_of_transfer_eq (Option.some.inj ht')]
    exact ⟨addr, hget⟩
  · obtain ⟨target, ht⟩ := h
    refine ⟨target, ?_⟩
    rw [EmissionBuffer.get?, hothers other.toNat fun he => hsame (UInt32.toNat_inj.mp he)]
    exact ht

/-- Targets of transfers are all written: by the time one is written, those before it have changed no
operation but in its target. -/
theorem write_of_transfers {entries : List (Addr × Addr)} {buffer : EmissionBuffer}
    (h : ∀ entry ∈ entries, ∃ conditional, Transfers buffer entry.1 conditional) : ∃ buffer',
      entries.foldlM (fun buffer entry => buffer.patch entry.1 entry.2) buffer = .ok buffer' ∧
      writeInPlace entries buffer = (.ok (), buffer') ∧ Written entries buffer buffer' := by
  induction entries generalizing buffer with
  | nil =>
      refine ⟨buffer, rfl, rfl, ?_, fun _ _ => rfl, rfl, rfl⟩
      simp
  | cons entry rest ih =>
      obtain ⟨slot, addr⟩ := entry
      obtain ⟨conditional, hslot⟩ := h (slot, addr) List.mem_cons_self
      obtain ⟨next, hpatch, hget, hothers, hlines, hcapacity⟩ := patch_of_transfers hslot addr
      have hkeep : ∀ other kind, Transfers buffer other kind → Transfers next other kind :=
        fun other kind ht => ht.patch hslot hget hothers
      have hrest : ∀ entry ∈ rest, ∃ kind, Transfers next entry.1 kind := by
        intro entry hentry
        obtain ⟨kind, ht⟩ := h entry (List.mem_cons_of_mem _ hentry)
        exact ⟨kind, hkeep _ _ ht⟩
      obtain ⟨buffer', hfold, hwrite, hw⟩ := ih hrest
      refine ⟨buffer', ?_, ?_, ?_, ?_, hw.lines.trans hlines, hw.capacity.trans hcapacity⟩
      · rw [List.foldlM_cons]
        exact except_bind_eq_ok.mpr ⟨next, hpatch, hfold⟩
      · simp only [writeInPlace, hpatch, hwrite]
      · intro before entry behind hsplit hlast kind ht
        cases before with
        | nil =>
            -- The first entry is the last one for its transfer: the others leave it alone.
            obtain ⟨rfl, rfl⟩ := List.cons.inj hsplit
            have hother := hw.others slot.toNat fun entry hentry he =>
              hlast entry hentry (UInt32.toNat_inj.mp he)
            obtain ⟨target, ht⟩ := ht
            obtain ⟨target', ht'⟩ := hslot
            rw [ht] at ht'
            rw [EmissionBuffer.get?, hother, Op.kind_of_transfer_eq (Option.some.inj ht')]
            exact hget
        | cons first before =>
            obtain ⟨rfl, rfl⟩ := List.cons.inj hsplit
            exact hw.last before entry behind rfl hlast kind (hkeep _ _ ht)
      · intro i hi
        rw [hw.others i fun entry hentry => hi entry (List.mem_cons_of_mem _ hentry)]
        exact hothers i (hi (slot, addr) List.mem_cons_self)

theorem resolveOne_eq_ok_iff {table : LabelTable} {buffer : EmissionBuffer} {r : Reference}
    {entry : Addr × Addr} : table.resolveOne buffer r = .ok entry ↔ entry.1 = r.slot ∧
      table.lookup r.label = some entry.2 ∧ ∃ conditional, Transfers buffer r.slot conditional := by
  rw [← transfers_iff, resolveOne]
  obtain ⟨slot, addr⟩ := entry
  cases table.lookup r.label with
  | none => simp
  | some found => by_cases h : ((buffer.get? r.slot).bind Op.target?).isSome <;> simp [h, eq_comm]

/-- After the check nothing fails. -/
theorem resolve_of_checked {table : LabelTable} {buffer : EmissionBuffer} {entries : List (Addr × Addr)}
    (h : table.pending.toList.mapM (table.resolveOne buffer) = .ok entries) : ∃ buffer',
      table.resolve buffer = .ok (table.pending.size, { table with pending := #[] }, buffer') ∧
      table.resolveInPlace buffer =
        (.ok table.pending.size, { table with pending := #[] }, buffer') ∧
      Resolved table buffer buffer' := by
  have hmap := mapM_eq_ok h
  have hlength : entries.length = table.pending.size := by
    simpa using (congrArg List.length hmap).symm
  have htransfers : ∀ entry ∈ entries, ∃ conditional, Transfers buffer entry.1 conditional := by
    intro entry hentry
    have hmem : .ok entry ∈ table.pending.toList.map (table.resolveOne buffer) := by
      rw [hmap]
      exact List.mem_map_of_mem hentry
    obtain ⟨r, -, hr⟩ := List.mem_map.mp hmem
    obtain ⟨hslot, -, ht⟩ := resolveOne_eq_ok_iff.mp hr
    rwa [hslot]
  obtain ⟨buffer', hfold, hwrite, hw⟩ := write_of_transfers htransfers
  refine ⟨buffer', ?_, ?_, ?_, ?_, hw.lines, hw.capacity⟩
  · rw [← hlength]
    exact except_bind_eq_ok.mpr ⟨entries, h, except_bind_eq_ok.mpr
      ⟨buffer', hfold, rfl⟩⟩
  · rw [resolveInPlace, h]
    simp only [hwrite, hlength]
  · intro before r behind hsplit hlast
    rw [hsplit, List.map_append, List.map_cons] at hmap
    obtain ⟨first, rest, hentries, hfirst, hrest⟩ := List.map_eq_append_iff.mp hmap.symm
    obtain ⟨entry, more, rfl, hentry, hmore⟩ := List.map_eq_cons_iff.mp hrest
    obtain ⟨hslot, hlookup, conditional, old, hold⟩ := resolveOne_eq_ok_iff.mp hentry.symm
    refine ⟨entry.2, conditional, old, hlookup, hold, ?_⟩
    rw [← hslot]
    refine hw.last first entry more hentries ?_ conditional ?_
    · intro other hother
      have hmem : .ok other ∈ behind.map (table.resolveOne buffer) := by
        rw [← hmore]
        exact List.mem_map_of_mem hother
      obtain ⟨r', hr', hok⟩ := List.mem_map.mp hmem
      rw [(resolveOne_eq_ok_iff.mp hok).1, hslot]
      exact hlast r' hr'
    · rw [hslot]
      exact ⟨old, hold⟩
  · intro i hi
    apply hw.others
    intro entry hentry
    have hmem : .ok entry ∈ table.pending.toList.map (table.resolveOne buffer) := by
      rw [hmap]
      exact List.mem_map_of_mem hentry
    obtain ⟨r, hr, hok⟩ := List.mem_map.mp hmem
    rw [(resolveOne_eq_ok_iff.mp hok).1]
    exact hi r (Array.mem_toList_iff.mp hr)

theorem resolve_of_unchecked {table : LabelTable} {buffer : EmissionBuffer} {e : EmissionError}
    (h : table.pending.toList.mapM (table.resolveOne buffer) = .error e) :
    table.resolve buffer = .error e ∧ table.resolveInPlace buffer = (.error e, table, buffer) := by
  constructor
  · rw [resolve, h]
    rfl
  · rw [resolveInPlace, h]

theorem resolve_eq_ok {table table' : LabelTable} {buffer buffer' : EmissionBuffer} {count : Nat}
    (h : table.resolve buffer = .ok (count, table', buffer')) :
    table.resolveInPlace buffer = (.ok count, table', buffer') ∧ count = table.pending.size ∧
      table' = { table with pending := #[] } ∧ Resolved table buffer buffer' := by
  cases hcheck : table.pending.toList.mapM (table.resolveOne buffer) with
  | error e =>
      rw [(resolve_of_unchecked hcheck).1] at h
      cases h
  | ok entries =>
      obtain ⟨buffer'', hresolve, hplace, hresolved⟩ := resolve_of_checked hcheck
      rw [hresolve] at h
      cases h
      exact ⟨hplace, rfl, rfl, hresolved⟩

/-- A fault is found by the check. -/
theorem unchecked_of_error {table : LabelTable} {buffer : EmissionBuffer} {e : EmissionError}
    (h : table.resolve buffer = .error e) :
    table.pending.toList.mapM (table.resolveOne buffer) = .error e := by
  cases hcheck : table.pending.toList.mapM (table.resolveOne buffer) with
  | error e' =>
      rw [(resolve_of_unchecked hcheck).1] at h
      cases h
      rfl
  | ok entries =>
      obtain ⟨buffer', hresolve, -⟩ := resolve_of_checked hcheck
      rw [hresolve] at h
      cases h

theorem resolve_fails_iff (table : LabelTable) (buffer : EmissionBuffer) :
    (∃ e, table.resolve buffer = .error e) ↔ ∃ r ∈ table.pending, ∃ e, Unresolvable table buffer r e := by
  constructor
  · rintro ⟨e, he⟩
    obtain ⟨before, r, behind, hsplit, hr, -⟩ := mapM_eq_error_iff.mp (unchecked_of_error he)
    refine ⟨r, ?_, e, resolveOne_eq_error_iff.mp hr⟩
    simp [← Array.mem_toList_iff, hsplit]
  · rintro ⟨r, hr, e, hfault⟩
    cases hcheck : table.pending.toList.mapM (table.resolveOne buffer) with
    | error e' => exact ⟨e', (resolve_of_unchecked hcheck).1⟩
    | ok entries =>
        have hmem : .error e ∈ table.pending.toList.map (table.resolveOne buffer) := by
          rw [← resolveOne_eq_error_iff.mpr hfault]
          exact List.mem_map_of_mem (Array.mem_toList_iff.mpr hr)
        simp [mapM_eq_ok hcheck] at hmem

/-- The record that is reported is the first that has a fault. -/
theorem reported_of_error {table : LabelTable} {buffer : EmissionBuffer} {e : EmissionError}
    (h : table.resolve buffer = .error e) : ∃ before r behind,
      table.pending.toList = before ++ r :: behind ∧ Unresolvable table buffer r e ∧
        ∀ r' ∈ before, ∀ e', ¬ Unresolvable table buffer r' e' := by
  obtain ⟨before, r, behind, hsplit, hr, hbefore⟩ := mapM_eq_error_iff.mp (unchecked_of_error h)
  refine ⟨before, r, behind, hsplit, resolveOne_eq_error_iff.mp hr, ?_⟩
  intro r' hr' e' hfault
  obtain ⟨entry, hentry⟩ := hbefore r' hr'
  rw [resolveOne_eq_error_iff.mpr hfault] at hentry
  cases hentry

/-- Resolving fails if and only if a record cannot be resolved. It then reports the first such record and
has changed nothing. Otherwise all records are resolved and none are left; the last record for a transfer
decides where it goes, and nothing else changes. -/
theorem resolve_all_or_nothing (table : LabelTable) (buffer : EmissionBuffer) :
    ((∃ e, table.resolve buffer = .error e) ↔
      ∃ r ∈ table.pending, ∃ e, Unresolvable table buffer r e) ∧
    (∀ e, table.resolve buffer = .error e →
      table.resolveInPlace buffer = (.error e, table, buffer) ∧
      ∃ before r behind, table.pending.toList = before ++ r :: behind ∧ Unresolvable table buffer r e ∧
        ∀ r' ∈ before, ∀ e', ¬ Unresolvable table buffer r' e') ∧
    ∀ count table' buffer', table.resolve buffer = .ok (count, table', buffer') →
      table.resolveInPlace buffer = (.ok count, table', buffer') ∧
      count = table.pending.size ∧ table' = { table with pending := #[] } ∧
      Resolved table buffer buffer' := by
  refine ⟨resolve_fails_iff table buffer, ?_, ?_⟩
  · intro e he
    exact ⟨(resolve_of_unchecked (unchecked_of_error he)).2, reported_of_error he⟩
  · intro count table' buffer' hok
    exact resolve_eq_ok hok

end LabelTable

/-- A table that waits twice for the transfer at address 0, under two labels. -/
def LabelTable.twice : LabelTable where
  pending := #[⟨0, "first", ⟨1, 1⟩⟩, ⟨1, "second", ⟨2, 1⟩⟩, ⟨0, "second", ⟨3, 1⟩⟩]
  bindings := ⟨[("second", ⟨5, ⟨5, 1⟩⟩), ("first", ⟨2, ⟨4, 1⟩⟩)]⟩
  order := #["first", "second"]
  capacity := 3

/-- Two transfers that wait, and an operation that is none. -/
def EmissionBuffer.waiting : EmissionBuffer where
  ops := #[.jump placeholder, .jumpIf placeholder, .exit]
  lines := #[1, 2, 3]

/-- The later record for address 0 wins, and the jump there stays unconditional. -/
theorem LabelTable.resolve_all_or_nothing_twice : ∃ buffer',
    LabelTable.twice.resolve .waiting = .ok (3, { LabelTable.twice with pending := #[] }, buffer') ∧
    LabelTable.twice.resolveInPlace .waiting =
      (.ok 3, { LabelTable.twice with pending := #[] }, buffer') ∧
    buffer'.get? 0 = some (.transfer false 5) ∧ buffer'.ops[2]? = some .exit := by
  refine ⟨{ EmissionBuffer.waiting with ops := #[.jump 5, .jumpIf 5, .exit] }, rfl, ?_⟩
  obtain ⟨hplace, -, -, hresolved⟩ :=
    (resolve_all_or_nothing LabelTable.twice .waiting).2.2 3 _ _ rfl
  refine ⟨hplace, ?_, hresolved.others 2 (by decide)⟩
  obtain ⟨addr, conditional, old, hlookup, hold, hnew⟩ :=
    hresolved.recorded [⟨0, "first", ⟨1, 1⟩⟩, ⟨1, "second", ⟨2, 1⟩⟩] ⟨0, "second", ⟨3, 1⟩⟩ [] rfl (by simp)
  obtain rfl : addr = 5 := by
    simpa [LabelTable.twice, lookup, Dictionary.get?] using hlookup.symm
  obtain rfl : conditional = false :=
    Op.kind_of_transfer_eq (Option.some.inj (hold.symm.trans (rfl : _ = some (Op.transfer false placeholder))))
  exact hnew

end GotoLang
