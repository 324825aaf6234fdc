import GotoLang.Proofs.Faults
import GotoLang.X64.MachineCode
import Mathlib.Data.List.Nodup

/-!
# Names and offsets

The labels of assembled code are looked up, go into a map from offsets to names, and are found in it by their names
again. Since no two labels have the same name, a name leads back to the offset of its label. Functions come out of
this search too; they are sorted by their offsets only then.
-/
namespace GotoLang.X64

namespace CodeLabel

/-- The labels without a number. -/
def plain : List CodeLabel :=
  [start, main, leave, trap, printInt, printIntPositive, printIntDigit, printIntWrite, printBool, printBoolFalse,
    printBoolWrite, trapText, trueText, falseText]

theorem plain_or_numbered (mark : CodeLabel) :
    mark ∈ plain ∨ (∃ addr, mark = op addr) ∨ ∃ addr, mark = divide addr := by
  cases mark <;> simp [plain]

theorem toList_name_op (addr : Nat) : (op addr).name.toList = ['.', 'L'] ++ Nat.toDigits 10 addr := by
  show (".L" ++ addr.repr).toList = _
  rw [String.toList_append, Nat.toList_repr]
  rfl

theorem toList_name_divide (addr : Nat) :
    (divide addr).name.toList = ['.', 'L', 'd', 'i', 'v'] ++ Nat.toDigits 10 addr := by
  show (".Ldiv" ++ addr.repr).toList = _
  rw [String.toList_append, Nat.toList_repr]
  rfl

theorem toDigits_injective {n m : Nat} (h : Nat.toDigits 10 n = Nat.toDigits 10 m) : n = m := by
  have hvalue := congrArg (Nat.ofDigitChars 10 · 0) h
  simpa only [Nat.ofDigitChars_ten_toDigits] using hvalue

theorem isDigit_getLast {front : List Char} {addr : Nat} {c : Char}
    (h : (front ++ Nat.toDigits 10 addr).getLast? = some c) : c.isDigit = true := by
  rw [List.getLast?_append_of_ne_nil _ Nat.toDigits_ne_nil] at h
  exact Nat.isDigit_of_mem_toDigits (by decide) (by decide) (List.mem_of_getLast? h)

theorem plain_not_digit : ∀ mark ∈ plain, mark.name.toList.getLast?.map Char.isDigit = some false := by
  decide

theorem plain_name_injective {mark mark' : CodeLabel} (hmark : mark ∈ plain) (hmark' : mark' ∈ plain)
    (h : mark.name = mark'.name) : mark = mark' := by
  have hnames : (plain.map name).Nodup := by decide
  exact (List.nodup_map_iff_inj_on (by decide)).mp hnames mark hmark mark' hmark' h

/-- A name without a number does not end like one with a number. -/
theorem plain_name_ne {mark : CodeLabel} (hmark : mark ∈ plain) (front : List Char) (addr : Nat) :
    mark.name.toList ≠ front ++ Nat.toDigits 10 addr := by
  intro h
  obtain ⟨c, hlast, hnot⟩ := Option.map_eq_some_iff.mp (plain_not_digit mark hmark)
  rw [h] at hlast
  rw [isDigit_getLast hlast] at hnot
  cases hnot

theorem name_op_ne_name_divide (addr addr' : Nat) : (op addr).name ≠ (divide addr').name := by
  intro h
  have h := congrArg String.toList h
  rw [toList_name_op, toList_name_divide] at h
  have hdigits : Nat.toDigits 10 addr = 'd' :: ['i', 'v'] ++ Nat.toDigits 10 addr' := List.append_cancel_left h
  have hmem : 'd' ∈ Nat.toDigits 10 addr := hdigits ▸ List.mem_cons_self
  cases Nat.isDigit_of_mem_toDigits (by decide) (by decide) hmem

/-- No two labels have the same name. -/
theorem name_injective {mark mark' : CodeLabel} (h : mark.name = mark'.name) : mark = mark' := by
  have hlist := congrArg String.toList h
  rcases plain_or_numbered mark with hplain | ⟨addr, rfl⟩ | ⟨addr, rfl⟩ <;>
    rcases plain_or_numbered mark' with hplain' | ⟨addr', rfl⟩ | ⟨addr', rfl⟩
  · exact plain_name_injective hplain hplain' h
  · exact absurd (hlist.trans (toList_name_op addr')) (plain_name_ne hplain _ _)
  · exact absurd (hlist.trans (toList_name_divide addr')) (plain_name_ne hplain _ _)
  · exact absurd (hlist.symm.trans (toList_name_op addr)) (plain_name_ne hplain' _ _)
  · rw [toList_name_op, toList_name_op] at hlist
    rw [toDigits_injective (List.append_cancel_left hlist)]
  · exact absurd h (name_op_ne_name_divide addr addr')
  · exact absurd (hlist.symm.trans (toList_name_divide addr)) (plain_name_ne hplain' _ _)
  · exact absurd h.symm (name_op_ne_name_divide addr' addr)
  · rw [toList_name_divide, toList_name_divide] at hlist
    rw [toDigits_injective (List.append_cancel_left hlist)]

end CodeLabel

namespace LabelMap

section
variable {map : LabelMap} {offset : Nat} {name : String}

theorem perm_pairs_add (map : LabelMap) (offset : Nat) (name : String) :
    (map.add offset name).pairs.Perm ((offset, name) :: map.pairs) := by
  obtain ⟨entries⟩ := map
  show ((insert offset name entries).flatMap _).Perm (_ :: entries.flatMap _)
  induction entries with
  | nil => exact .refl _
  | cons entry rest ih =>
      obtain ⟨other, names⟩ := entry
      rw [insert]
      split
      · exact .refl _
      · split
        · next heq =>
            subst heq
            simp only [List.flatMap_cons, List.map_append, List.append_assoc]
            exact List.perm_middle
        · exact (ih.append_left _).trans List.perm_middle

theorem perm_pairs_foldl (entries : List (String × Nat)) (map : LabelMap) :
    (entries.foldl (fun map entry => map.add entry.2 entry.1) map).pairs.Perm
      (entries.map Prod.swap ++ map.pairs) := by
  induction entries generalizing map with
  | nil => exact .refl _
  | cons entry entries ih =>
      exact (ih _).trans (((perm_pairs_add map entry.2 entry.1).append_left _).trans List.perm_middle)

/-- Offsets are there since they have names. -/
def Named (map : LabelMap) : Prop :=
  ∀ entry ∈ map.entries, entry.2 ≠ []

theorem Named.add (h : map.Named) (offset : Nat) (name : String) : (map.add offset name).Named := by
  obtain ⟨entries⟩ := map
  show ∀ entry ∈ insert offset name entries, entry.2 ≠ []
  induction entries with
  | nil => simp [insert]
  | cons first rest ih =>
      obtain ⟨hfirst, hrest⟩ := List.forall_mem_cons.mp h
      rw [insert]
      split
      · exact List.forall_mem_cons.mpr ⟨List.cons_ne_nil _ _, h⟩
      · split
        · exact List.forall_mem_cons.mpr ⟨List.append_ne_nil_of_left_ne_nil hfirst _, hrest⟩
        · exact List.forall_mem_cons.mpr ⟨hfirst, ih hrest⟩

theorem Named.foldl (h : map.Named) (entries : List (String × Nat)) :
    (entries.foldl (fun map entry => map.add entry.2 entry.1) map).Named := by
  induction entries generalizing map with
  | nil => exact h
  | cons entry entries ih => exact ih (h.add entry.2 entry.1)

theorem Named.single (h : map.Named) (hnodup : (map.pairs.map Prod.fst).Nodup) :
    ∀ entry ∈ map.entries, ∃ name, entry.2 = [name] := by
  intro entry hentry
  rw [pairs, List.map_flatMap, List.nodup_flatMap] at hnodup
  have hone := hnodup.1 entry hentry
  have hsome := h entry hentry
  cases hnames : entry.2 with
  | nil => exact absurd hnames hsome
  | cons name names =>
      cases names with
      | nil => exact ⟨name, rfl⟩
      | cons other names => simp [hnames] at hone

theorem mem_pairs_of_offset? (h : map.offset? name = some offset) : (offset, name) ∈ map.pairs := by
  obtain ⟨entry, hfind, rfl⟩ := Option.map_eq_some_iff.mp h
  have hname := List.find?_some hfind
  exact List.mem_flatMap.mpr ⟨entry, List.mem_of_find?_eq_some hfind,
    List.mem_map_of_mem (List.contains_iff_mem.mp hname)⟩

theorem exists_offset? (h : (offset, name) ∈ map.pairs) : ∃ place, map.offset? name = some place := by
  obtain ⟨entry, hentry, hmem⟩ := List.mem_flatMap.mp h
  obtain ⟨_, hname, heq⟩ := List.mem_map.mp hmem
  cases heq
  have hfound : (map.entries.find? fun entry => entry.2.contains name).isSome :=
    List.find?_isSome.mpr ⟨entry, hentry, List.contains_iff_mem.mpr hname⟩
  obtain ⟨found, hfound⟩ := Option.isSome_iff_exists.mp hfound
  exact ⟨found.1, by rw [offset?, hfound]; rfl⟩

end

end LabelMap

namespace Assembled

section
variable {label : Type} [DecidableEq label] {code : Assembled label}

theorem labelOffset_eq_ok {mark : label} {offset : Nat} :
    code.labelOffset mark = .ok offset ↔ code.offset? mark = some offset := by
  rw [labelOffset]
  split
  · next heq => rw [heq, Except.ok.injEq, Option.some.injEq]
  · next heq => simp [heq]

theorem mapM_labelOffset {marks : List label} {offsets : List Nat}
    (h : marks.mapM code.labelOffset = .ok offsets) : marks.map code.offset? = offsets.map some := by
  induction marks generalizing offsets with
  | nil =>
      cases h
      rfl
  | cons mark marks ih =>
      obtain ⟨offset, rest, hoffset, hrest, rfl⟩ := mapM_cons_eq_ok h
      rw [List.map_cons, List.map_cons, ih hrest, labelOffset_eq_ok.mp hoffset]

theorem mapM_named {named : List (String × label)} {offsets : List Nat}
    (h : named.mapM (fun entry => code.labelOffset entry.2) = .ok offsets) :
    (∀ entry ∈ named, ∃ offset, code.offset? entry.2 = some offset) ∧
      ((named.map Prod.fst).zip offsets).map Prod.swap =
        named.filterMap fun entry => (code.offset? entry.2).map (·, entry.1) := by
  induction named generalizing offsets with
  | nil => exact ⟨by simp, rfl⟩
  | cons entry named ih =>
      obtain ⟨offset, rest, hoffset, hrest, rfl⟩ := mapM_cons_eq_ok h
      obtain ⟨hplaced, hpairs⟩ := ih hrest
      have hoffset := labelOffset_eq_ok.mp hoffset
      refine ⟨List.forall_mem_cons.mpr ⟨⟨offset, hoffset⟩, hplaced⟩, ?_⟩
      simp only [List.map_cons, List.zip_cons_cons, hpairs, List.filterMap_cons, hoffset, Option.map_some]
      rfl

theorem resolve_eq_ok {ops : List label} {named : List (String × label)} {assembly : Assembly label}
    (h : code.resolve ops named = .ok assembly) :
    assembly.code = code ∧ ops.map code.offset? = assembly.opOffsets.toList.map some ∧ assembly.labels.Named ∧
      (∀ entry ∈ named, ∃ offset, code.offset? entry.2 = some offset) ∧
      assembly.labels.pairs.Perm
        (named.filterMap fun entry => (code.offset? entry.2).map (·, entry.1)) := by
  obtain ⟨opOffsets, hops, h⟩ := except_bind_eq_ok.mp h
  obtain ⟨offsets, hnamed, h⟩ := except_bind_eq_ok.mp h
  cases h
  obtain ⟨hplaced, hpairs⟩ := mapM_named hnamed
  have hempty : ({} : LabelMap).Named := fun _ hentry => absurd hentry List.not_mem_nil
  refine ⟨rfl, mapM_labelOffset hops, hempty.foldl _, hplaced, ?_⟩
  have hperm := LabelMap.perm_pairs_foldl ((named.map Prod.fst).zip offsets) {}
  rwa [hpairs, show ({} : LabelMap).pairs = [] from rfl, List.append_nil] at hperm

end

end Assembled

namespace CodeGeneration

/-- What is known about code whose labels were looked up. -/
structure Resolved (options : CodeOptions) (ops : Array Op) (depths : Flow.Depths)
    (assembly : Assembly CodeLabel) : Prop where
  operations : (opLabels ops).map assembly.code.offset? = assembly.opOffsets.toList.map some
  named : ∀ mark ∈ namedLabels options ops depths, ∃ offset, assembly.code.offset? mark = some offset
  offsets : assembly.labels.Named
  /-- The map has the labels with a name of their own and no others. -/
  pairs : assembly.labels.pairs.Perm ((namedLabels options ops depths).filterMap fun mark =>
    (assembly.code.offset? mark).map (·, mark.name))

section
variable {options : CodeOptions} {ops : Array Op} {depths : Flow.Depths} {code : Assembled CodeLabel}
  {assembly : Assembly CodeLabel} {mark : CodeLabel} {offset : Nat}

theorem resolve_eq_ok (h : resolve options ops depths code = .ok assembly) :
    assembly.code = code ∧ Resolved options ops depths assembly := by
  obtain ⟨rfl, hops, hoffsets, hplaced, hpairs⟩ := Assembled.resolve_eq_ok (mapError_eq_ok.mp h)
  rw [List.filterMap_map] at hpairs
  exact ⟨rfl, hops, fun mark hmark => hplaced (mark.name, mark) (List.mem_map_of_mem hmark), hoffsets, hpairs⟩

namespace Resolved

theorem size_opOffsets (h : Resolved options ops depths assembly) : assembly.opOffsets.size = ops.size := by
  have hlength := congrArg List.length h.operations
  simpa [opLabels] using hlength.symm

theorem opOffset (h : Resolved options ops depths assembly) {addr : Nat} (haddr : addr < ops.size) :
    assembly.code.offset? (.op addr) = assembly.opOffsets[addr]? := by
  have hsize := h.size_opOffsets
  have hget := congrArg (·[addr]?) h.operations
  simpa [opLabels, haddr, hsize] using hget

theorem exists_label (h : Resolved options ops depths assembly) {name : String}
    (hname : assembly.labels.offset? name = some offset) :
    ∃ mark ∈ namedLabels options ops depths, mark.name = name ∧ assembly.code.offset? mark = some offset := by
  obtain ⟨mark, hmark, hentry⟩ := List.mem_filterMap.mp (h.pairs.mem_iff.mp (LabelMap.mem_pairs_of_offset? hname))
  obtain ⟨_, hoffset, heq⟩ := Option.map_eq_some_iff.mp hentry
  cases heq
  exact ⟨mark, hmark, rfl, hoffset⟩

theorem mem_pairs (h : Resolved options ops depths assembly) (hmark : mark ∈ namedLabels options ops depths)
    (hoffset : assembly.code.offset? mark = some offset) : (offset, mark.name) ∈ assembly.labels.pairs :=
  h.pairs.mem_iff.mpr (List.mem_filterMap.mpr ⟨mark, hmark, by rw [hoffset]; rfl⟩)

/-- A name leads to the offset of its label. -/
theorem offset?_of_mem (h : Resolved options ops depths assembly) (hmark : mark ∈ namedLabels options ops depths) :
    assembly.labels.offset? mark.name = assembly.code.offset? mark := by
  obtain ⟨offset, hoffset⟩ := h.named mark hmark
  obtain ⟨place, hplace⟩ := LabelMap.exists_offset? (h.mem_pairs hmark hoffset)
  obtain ⟨other, -, hname, hother⟩ := h.exists_label hplace
  rw [hplace, ← CodeLabel.name_injective hname, hother]

theorem offset?_of_notMem (h : Resolved options ops depths assembly)
    (hmark : mark ∉ namedLabels options ops depths) : assembly.labels.offset? mark.name = none := by
  rw [Option.eq_none_iff_forall_ne_some]
  intro offset hoffset
  obtain ⟨other, hother, hname, -⟩ := h.exists_label hoffset
  exact hmark (CodeLabel.name_injective hname ▸ hother)

end Resolved

end

end CodeGeneration

namespace MachineCode

/-- Sizes are all that is added to functions. -/
theorem map_withSizes (stop : Nat) (functions : List Function) :
    (withSizes stop functions).map (fun function => (function.name, function.offset)) =
      functions.map fun function => (function.name, function.offset) := by
  rw [withSizes, List.map_map]
  show (functions.zip _).map ((fun function => (function.name, function.offset)) ∘ Prod.fst) = _
  rw [← List.map_map, List.map_fst_zip]
  simp only [List.length_append, List.length_map, List.length_drop, List.length_singleton]
  omega

section
variable {program : Program} {options : CodeOptions} {needs : CodeGeneration.Needs} {assembly : Assembly CodeLabel}
  {name : String} {offset : Nat}

/-- Functions are found by their names. -/
theorem mem_functions : (name, offset) ∈ (describe program options needs assembly).functions.map
      (fun function => (function.name, function.offset)) ↔
    name ∈ (starts options needs).map Prod.fst ∧ assembly.labels.offset? name = some offset := by
  rw [describe, map_withSizes, ((perm_sortByKey _ _).map _).mem_iff, List.mem_map]
  constructor
  · rintro ⟨function, hfunction, hentry⟩
    obtain ⟨start, hstart, hfound⟩ := List.mem_filterMap.mp hfunction
    obtain ⟨place, hplace, rfl⟩ := Option.map_eq_some_iff.mp hfound
    cases hentry
    exact ⟨List.mem_map_of_mem hstart, hplace⟩
  · rintro ⟨hname, hoffset⟩
    obtain ⟨start, hstart, rfl⟩ := List.mem_map.mp hname
    refine ⟨⟨start.1, offset, 0, start.2⟩, List.mem_filterMap.mpr ⟨start, hstart, ?_⟩, rfl⟩
    rw [hoffset]
    rfl

theorem mainOffset_describe {depths : Flow.Depths} (h : CodeGeneration.Resolved options program.ops depths assembly) :
    (describe program options needs assembly).mainOffset = (assembly.code.offset? .main).getD 0 := by
  have hmain : CodeLabel.main ∈ CodeGeneration.namedLabels options program.ops depths := by
    simp [CodeGeneration.namedLabels, CodeGeneration.named]
  obtain ⟨offset, hoffset⟩ := h.named _ hmain
  have hname : CodeLabel.main.name ∈ (starts options needs).map Prod.fst := by simp [starts]
  have hlabel := h.offset?_of_mem hmain
  rw [hoffset] at hlabel ⊢
  -- Whichever function with this name comes first, it has the offset that the name leads to.
  obtain ⟨function, hfunction, hentry⟩ := List.mem_map.mp (mem_functions.mpr ⟨hname, hlabel⟩)
  have hfound : ((describe program options needs assembly).symbol? CodeLabel.main.name).isSome :=
    List.find?_isSome.mpr ⟨function, hfunction, by simpa using congrArg Prod.fst hentry⟩
  obtain ⟨main, hmain⟩ := Option.isSome_iff_exists.mp hfound
  have hmem := List.mem_map_of_mem (f := fun function : Function => (function.name, function.offset))
    (List.mem_of_find?_eq_some hmain)
  have hplace := (mem_functions.mp hmem).2
  have hfirst : main.name = CodeLabel.main.name := by simpa using List.find?_some hmain
  rw [hfirst, hlabel] at hplace
  rw [mainOffset, hmain, Option.some.inj hplace]
  rfl

end

end MachineCode

end GotoLang.X64
