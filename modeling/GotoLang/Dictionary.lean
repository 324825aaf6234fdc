/-!
# Dictionaries

A map from names to values. Inserting a name removes the entry that it may have.
-/
namespace GotoLang

structure Dictionary (α : Type) where
  entries : List (String × α) := []
deriving DecidableEq

namespace Dictionary

variable {α : Type}

def get? (dictionary : Dictionary α) (name : String) : Option α :=
  dictionary.entries.lookup name

def insert (dictionary : Dictionary α) (name : String) (value : α) : Dictionary α :=
  ⟨(name, value) :: dictionary.entries.filter (·.1 != name)⟩

theorem lookup_filter_ne {entries : List (String × α)} {name other : String} (h : name ≠ other) :
    (entries.filter (·.1 != name)).lookup other = entries.lookup other := by
  induction entries with
  | nil => rfl
  | cons entry entries ih =>
      obtain ⟨key, value⟩ := entry
      by_cases hkey : key = name
      · subst hkey
        have hne : (other == key) = false := beq_eq_false_iff_ne.mpr h.symm
        simp [List.lookup_cons, hne, ih]
      · cases hother : other == key <;> simp [hkey, List.lookup_cons, hother, ih]

@[simp]
theorem get?_insert (dictionary : Dictionary α) (name other : String) (value : α) :
    (dictionary.insert name value).get? other = if name = other then some value else dictionary.get? other := by
  by_cases h : name = other
  · subst h
    simp [get?, insert]
  · have hne : (other == name) = false := beq_eq_false_iff_ne.mpr (Ne.symm h)
    simp only [get?, insert, List.lookup_cons, hne, if_neg h]
    exact lookup_filter_ne h

theorem get?_eq_none_iff {dictionary : Dictionary α} {name : String} :
    dictionary.get? name = none ↔ ∀ entry ∈ dictionary.entries, entry.1 ≠ name := by
  simp only [get?, List.lookup_eq_none_iff, bne_iff_ne, ne_comm]

end Dictionary

end GotoLang
