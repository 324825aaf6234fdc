import GotoLang.Proofs.Faults
import GotoLang.SymbolTable
import Mathlib.Data.List.Induction
import Mathlib.Logic.Equiv.Basic

/-!
# Names and slots

A symbol table is asked to declare names and to look them up. Whatever it was asked before, and whether it
answered or refused, its slots and the names that were declared correspond one to one, and a slot holds what
was declared for it. Of the calls that declare a name only the first succeeds. Its answer is what the name
refers to from then on, and every later call is refused with a reference to it.

The table keeps a map from names to symbols and a list of what stands in the slots, and changes one after the
other. What a declaration keeps is that they agree: each slot is in the map under its name and with its number,
and each name of the map stands in a slot.

Slots are 32-bit numbers, so this is about tables with no more variables than there are such numbers.
-/
namespace GotoLang

namespace SymbolTable

/-- The calls on a table. -/
inductive Call where
  | declare (name : String) (ty : Ty) (span : Span)
  | lookup (name : String) (span : Span)

/-- The answer to a call and the table it leaves. -/
def Call.perform : Call → SymbolTable → Except TypingError Symbol × SymbolTable
  | .declare name ty span, table =>
    match SymbolTable.declare name ty span table with
    | .ok symbol next => (.ok symbol, next)
    | .error e next => (.error e, next)
  | .lookup name span, table => (table.lookup name span, table)

/-- The table after some calls, failed or not. -/
def performAll (calls : List Call) (table : SymbolTable) : SymbolTable :=
  calls.foldl (fun table call => (call.perform table).2) table

/-- Some call declares a name. -/
def Declared (calls : List Call) (name : String) : Prop :=
  ∃ ty span, .declare name ty span ∈ calls

/-- The call at a position declares a name, and the table that the calls before it leave answers it with a
symbol. -/
structure Succeeds (calls : List Call) (i : Nat) (name : String) (ty : Ty) (span : Span) (symbol : Symbol) :
    Prop where
  call : calls[i]? = some (.declare name ty span)
  answer : ((Call.declare name ty span).perform (performAll (calls.take i) {})).1 = .ok symbol

/-- What is known of a table after some calls on a new one. -/
structure Consistent (calls : List Call) (table : SymbolTable) : Prop where
  /-- The slots of the table and the declared names correspond one to one. -/
  bijection : ∃ nameOf : Fin table.size ≃ {name // Declared calls name}, ∀ slot span, ∃ symbol,
    table.lookup (nameOf slot) span = .ok symbol ∧ symbol.slot.toNat = slot
  /-- The variable in a slot has the name and the type of the symbol with this slot. -/
  slots : ∀ (slot : Slot) entry span, table.slots[slot.toNat]? = some entry ↔ ∃ symbol, table.lookup entry.name span = .ok symbol ∧ symbol.slot = slot ∧ symbol.ty = entry.ty
  /-- Of the calls that declare a name, one succeeds. -/
  once : ∀ name, Declared calls name → ∃! i, ∃ ty span symbol, Succeeds calls i name ty span symbol
  /-- Its answer has the type and the position it was called with. -/
  stated : ∀ i name ty span symbol, Succeeds calls i name ty span symbol →
    symbol.ty = ty ∧ symbol.declaredAt = span
  /-- This answer is what the name refers to. -/
  lookup : ∀ name span symbol, table.lookup name span = .ok symbol ↔
    ∃ i ty first, Succeeds calls i name ty first symbol
  /-- Declaring the name again is refused with the position of the call that succeeded, and changes nothing. -/
  redeclared : ∀ i name ty first symbol, Succeeds calls i name ty first symbol → ∀ ty' span,
    (Call.declare name ty' span).perform table = (.error (.redeclared name first span), table)

section
variable {table : SymbolTable} {name : String} {ty : Ty} {span : Span} {symbol : Symbol}

theorem declare_of_declared (h : table.symbols.get? name = some symbol) :
    declare name ty span table = .error (.redeclared name symbol.declaredAt span) table := by
  rw [declare, get_bind]
  simp only [h]
  rfl

/-- The table with one more variable, in the next free slot. -/
def extended (table : SymbolTable) (name : String) (ty : Ty) (span : Span) : SymbolTable where
  symbols := table.symbols.insert name ⟨table.size.toUInt32, ty, span⟩
  slots := table.slots.push ⟨name, ty⟩

theorem declare_of_new (h : table.symbols.get? name = none) :
    declare name ty span table = .ok ⟨table.size.toUInt32, ty, span⟩ (table.extended name ty span) := by
  rw [declare, get_bind]
  simp only [h]
  rfl

theorem declare_eq_ok {table' : SymbolTable} (h : declare name ty span table = .ok symbol table') :
    table.symbols.get? name = none ∧ symbol = ⟨table.size.toUInt32, ty, span⟩ ∧
      table' = table.extended name ty span := by
  cases hget : table.symbols.get? name with
  | some earlier =>
      rw [declare_of_declared hget] at h
      cases h
  | none =>
      rw [declare_of_new hget] at h
      cases h
      exact ⟨rfl, rfl, rfl⟩

theorem get?_extended (other : String) : (table.extended name ty span).symbols.get? other =
    if name = other then some ⟨table.size.toUInt32, ty, span⟩ else table.symbols.get? other :=
  Dictionary.get?_insert ..

theorem lookup_eq_ok_iff : table.lookup name span = .ok symbol ↔ table.symbols.get? name = some symbol := by
  rw [lookup]
  cases table.symbols.get? name <;> simp

/-- The map and the slots agree. -/
structure Paired (table : SymbolTable) : Prop where
  listed : ∀ (i : Nat) entry, table.slots[i]? = some entry → ∃ symbol,
    table.symbols.get? entry.name = some symbol ∧ symbol.slot = i.toUInt32 ∧ symbol.ty = entry.ty
  placed : ∀ name symbol, table.symbols.get? name = some symbol →
    ∃ i : Nat, table.slots[i]? = some ⟨name, symbol.ty⟩

theorem Paired.extended (h : table.Paired) (hnew : table.symbols.get? name = none) :
    (table.extended name ty span).Paired := by
  constructor
  case listed =>
    intro i entry hi
    rw [SymbolTable.extended, Array.getElem?_push] at hi
    rw [get?_extended]
    split at hi
    · next hlast =>
        obtain rfl := Option.some.inj hi
        rw [if_pos rfl, hlast]
        exact ⟨_, rfl, rfl, rfl⟩
    · obtain ⟨symbol, hget, hslot, hty⟩ := h.listed i entry hi
      have hne : name ≠ entry.name := by
        rintro rfl
        rw [hnew] at hget
        cases hget
      rw [if_neg hne]
      exact ⟨symbol, hget, hslot, hty⟩
  case placed =>
    intro other symbol hget
    rw [get?_extended] at hget
    split at hget
    · next heq =>
        obtain rfl := Option.some.inj hget
        rw [← heq]
        exact ⟨table.slots.size, Array.getElem?_push_size⟩
    · obtain ⟨i, hi⟩ := h.placed other symbol hget
      have hlt := (Array.getElem?_eq_some_iff.mp hi).1
      refine ⟨i, ?_⟩
      rw [SymbolTable.extended, Array.getElem?_push_lt hlt, ← Array.getElem?_eq_getElem]
      exact hi

/-- With no more variables than there are slots, the slot of a symbol is the place of its variable. -/
theorem Paired.slot_eq (h : table.Paired) (hsize : table.size ≤ 4294967296) {i : Nat} {entry : Variable}
    (hi : table.slots[i]? = some entry) (hget : table.symbols.get? entry.name = some symbol) :
    symbol.slot.toNat = i ∧ symbol.ty = entry.ty := by
  obtain ⟨found, hfound, hslot, hty⟩ := h.listed i entry hi
  rw [hget] at hfound
  obtain rfl := Option.some.inj hfound
  have hlt : i < table.size := (Array.getElem?_eq_some_iff.mp hi).1
  refine ⟨?_, hty⟩
  rw [hslot]
  exact UInt32.toNat_ofNat_of_lt' (Nat.lt_of_lt_of_le hlt hsize)

/-- A symbol is found in its slot. -/
theorem Paired.getElem?_slot (h : table.Paired) (hsize : table.size ≤ 4294967296)
    (hget : table.symbols.get? name = some symbol) :
    table.slots[symbol.slot.toNat]? = some ⟨name, symbol.ty⟩ := by
  obtain ⟨i, hi⟩ := h.placed name symbol hget
  rw [(h.slot_eq hsize hi hget).1]
  exact hi

/-- A call is a successful declaration of a new name, or it leaves the table and is none. -/
theorem perform_cases (call : Call) (table : SymbolTable) :
    (∃ name ty span, call = .declare name ty span ∧ table.symbols.get? name = none ∧
      call.perform table = (.ok ⟨table.size.toUInt32, ty, span⟩, table.extended name ty span)) ∨
    (call.perform table).2 = table ∧ ∀ name ty span, call = .declare name ty span →
      table.symbols.get? name ≠ none ∧ ∀ symbol, (call.perform table).1 ≠ .ok symbol := by
  cases call with
  | declare name ty span =>
      rw [Call.perform]
      cases hget : table.symbols.get? name with
      | none =>
          rw [declare_of_new hget]
          exact .inl ⟨name, ty, span, rfl, hget, rfl⟩
      | some earlier =>
          rw [declare_of_declared hget]
          refine .inr ⟨rfl, ?_⟩
          intro _ _ _ hcall
          cases hcall
          constructor
          · simp [hget]
          · intro symbol hok
            cases hok
  | lookup name span =>
      refine .inr ⟨rfl, ?_⟩
      intro _ _ _ hcall
      cases hcall

end

theorem performAll_concat (calls : List Call) (call : Call) (table : SymbolTable) :
    performAll (calls ++ [call]) table = (call.perform (performAll calls table)).2 := by
  rw [performAll, List.foldl_append]
  rfl

theorem declared_concat {calls : List Call} {call : Call} {name : String} :
    Declared (calls ++ [call]) name ↔ Declared calls name ∨ ∃ ty span, call = .declare name ty span := by
  simp only [Declared, List.mem_append, List.mem_singleton, eq_comm (a := call), exists_or]

theorem getElem?_concat_eq_some {calls : List Call} {call other : Call} {i : Nat} :
    (calls ++ [call])[i]? = some other ↔ calls[i]? = some other ∨ i = calls.length ∧ call = other := by
  grind

/-- One more call leaves the successes before it and can be one itself. -/
theorem succeeds_concat {calls : List Call} {call : Call} {i : Nat} {name : String} {ty : Ty} {span : Span}
    {symbol : Symbol} : Succeeds (calls ++ [call]) i name ty span symbol ↔
      Succeeds calls i name ty span symbol ∨
        i = calls.length ∧ call = .declare name ty span ∧
          (call.perform (performAll calls {})).1 = .ok symbol := by
  have htake : calls[i]? = some (.declare name ty span) → (calls ++ [call]).take i = calls.take i := fun h =>
    List.take_append_of_le_length (Nat.le_of_lt (List.getElem?_eq_some_iff.mp h).1)
  constructor
  · rintro ⟨hdeclare, hanswer⟩
    rcases getElem?_concat_eq_some.mp hdeclare with hbefore | ⟨rfl, rfl⟩
    · rw [htake hbefore] at hanswer
      exact .inl ⟨hbefore, hanswer⟩
    · rw [List.take_left] at hanswer
      exact .inr ⟨rfl, rfl, hanswer⟩
  · rintro (⟨hbefore, hanswer⟩ | ⟨rfl, rfl, hanswer⟩)
    · rw [← htake hbefore] at hanswer
      exact ⟨getElem?_concat_eq_some.mpr (.inl hbefore), hanswer⟩
    · refine ⟨getElem?_concat_eq_some.mpr (.inr ⟨rfl, rfl⟩), ?_⟩
      rw [List.take_left]
      exact hanswer

/-- What each call keeps. -/
structure Tracks (calls : List Call) (table : SymbolTable) : Prop where
  paired : table.Paired
  declared : ∀ name, table.symbols.get? name ≠ none ↔ Declared calls name
  found : ∀ name symbol, table.symbols.get? name = some symbol ↔
    ∃ i ty span, Succeeds calls i name ty span symbol
  once : ∀ name i j ty ty' span span' symbol symbol', Succeeds calls i name ty span symbol →
    Succeeds calls j name ty' span' symbol' → i = j

/-- A call that leaves the table declares no new name. -/
theorem Tracks.concat_of_same {calls : List Call} {call : Call} {table : SymbolTable}
    (h : Tracks calls table) (hrun : performAll calls {} = table)
    (hcall : ∀ name ty span, call = .declare name ty span → table.symbols.get? name ≠ none ∧
      ∀ symbol, (call.perform table).1 ≠ .ok symbol) : Tracks (calls ++ [call]) table := by
  have hsucceeds : ∀ {i name ty span symbol},
      Succeeds (calls ++ [call]) i name ty span symbol ↔ Succeeds calls i name ty span symbol := by
    intro i name ty span symbol
    rw [succeeds_concat, hrun, or_iff_left]
    rintro ⟨-, hdeclare, hok⟩
    exact (hcall name ty span hdeclare).2 symbol hok
  refine ⟨h.paired, ?_, ?_, ?_⟩
  · intro name
    rw [declared_concat, h.declared, or_iff_left_of_imp]
    rintro ⟨ty, span, hdeclare⟩
    exact (h.declared name).mp (hcall name ty span hdeclare).1
  · simpa only [hsucceeds] using h.found
  · simpa only [hsucceeds] using h.once

/-- A call that declares a new name adds one symbol and one success. -/
theorem Tracks.concat_of_new {calls : List Call} {table : SymbolTable} {name : String} {ty : Ty} {span : Span}
    (h : Tracks calls table) (hrun : performAll calls {} = table) (hnew : table.symbols.get? name = none)
    (hanswer : ((Call.declare name ty span).perform table).1 = .ok ⟨table.size.toUInt32, ty, span⟩) :
    Tracks (calls ++ [.declare name ty span]) (table.extended name ty span) := by
  have hsucceeds : ∀ {i other ty' span' found},
      Succeeds (calls ++ [.declare name ty span]) i other ty' span' found ↔
        Succeeds calls i other ty' span' found ∨ i = calls.length ∧
          name = other ∧ ty = ty' ∧ span = span' ∧ ⟨table.size.toUInt32, ty, span⟩ = found := by
    intro i other ty' span' found
    rw [succeeds_concat, hrun, hanswer]
    simp only [Call.declare.injEq, Except.ok.injEq, and_assoc]
  -- Before this call no call for the name succeeded.
  have hfresh : ∀ {i ty' span' found}, ¬ Succeeds calls i name ty' span' found := by
    intro i ty' span' found hearlier
    have hfound := (h.found name found).mpr ⟨i, ty', span', hearlier⟩
    rw [hnew] at hfound
    cases hfound
  constructor
  case paired => exact h.paired.extended hnew
  case declared =>
    intro other
    rw [get?_extended, declared_concat, ← h.declared]
    by_cases heq : name = other
    · simp [heq]
    · simp [heq]
  case found =>
    intro other found
    rw [get?_extended]
    simp only [hsucceeds]
    split
    · next heq =>
        subst heq
        constructor
        · intro hfound
          exact ⟨calls.length, _, _, .inr ⟨rfl, rfl, rfl, rfl, Option.some.inj hfound⟩⟩
        · rintro ⟨i, ty', span', hearlier | ⟨-, -, -, -, rfl⟩⟩
          · exact absurd hearlier hfresh
          · rfl
    · next hne =>
        rw [h.found]
        simp [hne]
  case once =>
    intro other i j ty₁ ty₂ span₁ span₂ found found' hi hj
    rcases hsucceeds.mp hi with hi | ⟨rfl, rfl, -⟩ <;> rcases hsucceeds.mp hj with hj | ⟨rfl, heq, -⟩
    · exact h.once other i j _ _ _ _ _ _ hi hj
    · exact absurd (heq ▸ hi) hfresh
    · exact absurd hj hfresh
    · rfl

theorem paired_new : Paired {} := by
  constructor
  case listed => simp
  case placed => simp [Dictionary.get?]

theorem tracks_nil : Tracks [] {} := by
  have hnone : ∀ {i name ty span symbol}, ¬ Succeeds [] i name ty span symbol := by
    intro i name ty span symbol h
    cases h.call
  constructor
  case paired => exact paired_new
  case declared => simp [Dictionary.get?, Declared]
  case found => simp [Dictionary.get?, hnone]
  case once => simp [hnone]

theorem tracks_performAll (calls : List Call) : Tracks calls (performAll calls {}) := by
  induction calls using List.reverseRecOn with
  | nil => exact tracks_nil
  | append_singleton calls call ih =>
      rw [performAll_concat]
      rcases perform_cases call (performAll calls {}) with
        ⟨name, ty, span, rfl, hnew, hperform⟩ | ⟨hsame, hcall⟩
      · rw [hperform]
        exact ih.concat_of_new rfl hnew (by rw [hperform])
      · rw [hsame]
        exact ih.concat_of_same rfl hcall

/-- An answer repeats what the call asked for. -/
theorem Succeeds.stated {calls : List Call} {i : Nat} {name : String} {ty : Ty} {span : Span} {symbol : Symbol}
    (h : Succeeds calls i name ty span symbol) : symbol.ty = ty ∧ symbol.declaredAt = span := by
  obtain ⟨-, hanswer⟩ := h
  rw [Call.perform] at hanswer
  split at hanswer
  · next hdeclare =>
      obtain ⟨-, hsymbol, -⟩ := declare_eq_ok hdeclare
      cases hanswer
      rw [hsymbol]
      exact ⟨rfl, rfl⟩
  · cases hanswer

/-- Each slot has a name, no two of them have the same, and no declared name is missing. -/
theorem Tracks.bijection {calls : List Call} {table : SymbolTable} (h : Tracks calls table)
    (hsize : table.size ≤ 4294967296) : ∃ nameOf : Fin table.size ≃ {name // Declared calls name}, ∀ slot,
      ∃ symbol, table.symbols.get? (nameOf slot) = some symbol ∧ symbol.slot.toNat = slot := by
  let entry : Fin table.slots.size → Variable := fun slot => table.slots[slot]
  have hplace : ∀ slot, table.slots[slot.val]? = some (entry slot) := fun slot =>
    Array.getElem?_eq_getElem slot.isLt
  have hget : ∀ slot, ∃ symbol, table.symbols.get? (entry slot).name = some symbol ∧
      symbol.slot.toNat = slot.val := by
    intro slot
    obtain ⟨symbol, hsymbol, -⟩ := h.paired.listed slot.val _ (hplace slot)
    exact ⟨symbol, hsymbol, (h.paired.slot_eq hsize (hplace slot) hsymbol).1⟩
  have hdeclared : ∀ slot, Declared calls (entry slot).name := by
    intro slot
    obtain ⟨symbol, hsymbol, -⟩ := hget slot
    exact (h.declared _).mp (by simp [hsymbol])
  let nameOf : Fin table.slots.size → {name // Declared calls name} := fun slot =>
    ⟨(entry slot).name, hdeclared slot⟩
  have hbijective : Function.Bijective nameOf := by
    constructor
    · intro slot slot' heq
      have hname : (entry slot).name = (entry slot').name := congrArg Subtype.val heq
      obtain ⟨symbol, hsymbol, hslot⟩ := hget slot
      obtain ⟨symbol', hsymbol', hslot'⟩ := hget slot'
      rw [hname, hsymbol'] at hsymbol
      obtain rfl := Option.some.inj hsymbol
      exact Fin.ext (hslot.symm.trans hslot')
    · rintro ⟨name, hname⟩
      obtain ⟨symbol, hsymbol⟩ := Option.ne_none_iff_exists'.mp ((h.declared name).mpr hname)
      obtain ⟨i, hi⟩ := h.paired.placed name symbol hsymbol
      obtain ⟨hlt, hentry⟩ := Array.getElem?_eq_some_iff.mp hi
      exact ⟨⟨i, hlt⟩, Subtype.ext (congrArg Variable.name hentry)⟩
  exact ⟨.ofBijective nameOf hbijective, hget⟩

/-- What stands in a slot is what is found by its name. -/
theorem Paired.getElem?_slot_iff {table : SymbolTable} (h : table.Paired) (hsize : table.size ≤ 4294967296)
    {slot : Slot} {entry : Variable} : table.slots[slot.toNat]? = some entry ↔ ∃ symbol,
      table.symbols.get? entry.name = some symbol ∧ symbol.slot = slot ∧ symbol.ty = entry.ty := by
  constructor
  · intro hplace
    obtain ⟨symbol, hsymbol, -⟩ := h.listed _ entry hplace
    obtain ⟨hslot, hty⟩ := h.slot_eq hsize hplace hsymbol
    exact ⟨symbol, hsymbol, UInt32.toNat_inj.mp hslot, hty⟩
  · rintro ⟨symbol, hsymbol, rfl, hty⟩
    rw [h.getElem?_slot hsize hsymbol, hty]

/-- After any calls on a new table, failed or not, names and slots correspond, as long as there are slots for
all names. -/
theorem names_match_slots (calls : List Call) (hsize : (performAll calls {}).size ≤ 4294967296) :
    Consistent calls (performAll calls {}) := by
  have h := tracks_performAll calls
  constructor
  case bijection =>
    obtain ⟨nameOf, hnameOf⟩ := h.bijection hsize
    refine ⟨nameOf, fun slot span => ?_⟩
    simp only [lookup_eq_ok_iff]
    exact hnameOf slot
  case slots =>
    intro slot entry span
    simp only [lookup_eq_ok_iff]
    exact h.paired.getElem?_slot_iff hsize
  case once =>
    intro name hname
    obtain ⟨symbol, hget⟩ := Option.ne_none_iff_exists'.mp ((h.declared name).mpr hname)
    obtain ⟨i, ty, span, hi⟩ := (h.found name symbol).mp hget
    refine ⟨i, ⟨ty, span, symbol, hi⟩, ?_⟩
    rintro j ⟨ty', span', symbol', hj⟩
    exact h.once name j i _ _ _ _ _ _ hj hi
  case stated => exact fun _ _ _ _ _ => Succeeds.stated
  case lookup =>
    intro name span symbol
    rw [lookup_eq_ok_iff, h.found]
  case redeclared =>
    intro i name ty first symbol hfirst ty' span
    have hget := (h.found name symbol).mpr ⟨i, ty, first, hfirst⟩
    rw [Call.perform, declare_of_declared hget, hfirst.stated.2]

/-- One name is looked up before it is declared, and the other is declared twice. -/
theorem names_match_slots_refused :
    let calls : List Call := [.declare "a" .int ⟨1, 5⟩, .lookup "b" ⟨1, 9⟩, .declare "b" .bool ⟨2, 5⟩,
      .declare "a" .bool ⟨3, 5⟩]
    let table := performAll calls {}
    table.size ≤ 4294967296 ∧
      table.lookup "b" ⟨4, 1⟩ = .ok { slot := 1, ty := .bool, declaredAt := ⟨2, 5⟩ } ∧
      table.slots[1]? = some ⟨"b", .bool⟩ ∧
      (Call.declare "a" .bool ⟨4, 5⟩).perform table = (.error (.redeclared "a" ⟨1, 5⟩ ⟨4, 5⟩), table) := by
  intro calls table
  have hsize : table.size ≤ 4294967296 := by decide
  have hconsistent := names_match_slots calls hsize
  have hfirst : Succeeds calls 0 "a" .int ⟨1, 5⟩ ⟨0, .int, ⟨1, 5⟩⟩ := ⟨rfl, rfl⟩
  have hsecond : Succeeds calls 2 "b" .bool ⟨2, 5⟩ ⟨1, .bool, ⟨2, 5⟩⟩ := ⟨rfl, rfl⟩
  have hlookup := fun span => (hconsistent.lookup "b" span _).mpr ⟨2, .bool, ⟨2, 5⟩, hsecond⟩
  refine ⟨hsize, hlookup ⟨4, 1⟩, ?_, hconsistent.redeclared 0 "a" _ _ _ hfirst _ _⟩
  exact (hconsistent.slots 1 ⟨"b", .bool⟩ ⟨4, 1⟩).mpr ⟨_, hlookup ⟨4, 1⟩, rfl, rfl⟩

end SymbolTable

end GotoLang
