import GotoLang.Proofs.X64.Marks

/-!
# Functions tile the code

The functions of a compiled program lie one behind the other, from the first byte to the place where the data
begin, and none of them is empty. The operations have increasing offsets within the function of the program.

Functions are told from other labels only after the code is assembled, and where the data begin is told by
the first text that the program needs, if it needs one. Both come out right since a script has its parts in a
fixed order, whichever of them it has.
-/
namespace GotoLang.X64

open Script

/-- Functions one behind the other from an offset to another one, none of them empty. -/
def Tiles : Nat → List Function → Nat → Prop
  | first, [], stop => first = stop
  | first, function :: rest, stop =>
    function.offset = first ∧ 0 < function.size ∧ Tiles (first + function.size) rest stop

/-- Functions in the order of their offsets. -/
abbrev Ascending (functions : List Function) : Prop :=
  functions.Pairwise fun first second => first.offset < second.offset

section
variable {stop : Nat} {function : Function} {functions : List Function}

theorem tiles_withSizes (hascending : Ascending (function :: functions))
    (hstop : ∀ other ∈ function :: functions, other.offset < stop) :
    Tiles function.offset (MachineCode.withSizes stop (function :: functions)) stop := by
  induction functions generalizing function with
  | nil =>
      have hlt := hstop function List.mem_cons_self
      refine ⟨rfl, Nat.sub_pos_of_lt hlt, ?_⟩
      show function.offset + (stop - function.offset) = stop
      omega
  | cons next functions ih =>
      obtain ⟨hfirst, hrest⟩ := List.pairwise_cons.mp hascending
      have hlt := hfirst next List.mem_cons_self
      have htiles := ih hrest fun other hother => hstop other (List.mem_cons_of_mem _ hother)
      refine ⟨rfl, Nat.sub_pos_of_lt hlt, ?_⟩
      show Tiles (function.offset + (next.offset - function.offset)) _ stop
      rwa [Nat.add_sub_cancel' (Nat.le_of_lt hlt)]

theorem ascending_sortByKey (hdistinct : (functions.map Function.offset).Nodup) :
    Ascending (sortByKey Function.offset functions) := by
  have hdistinct := ((perm_sortByKey Function.offset functions).map Function.offset).nodup_iff.mpr hdistinct
  rw [List.Nodup, List.pairwise_map] at hdistinct
  exact ((sorted_sortByKey Function.offset functions).and hdistinct).imp fun h => Nat.lt_of_le_of_ne h.1 h.2

/-- In whatever order functions were found, they tile the code if no two of them have the same offset and one of
them begins with the code. -/
theorem tiles_sortByKey (hdistinct : (functions.map Function.offset).Nodup)
    (hfirst : ∃ function ∈ functions, function.offset = 0) (hstop : ∀ function ∈ functions, function.offset < stop) :
    Tiles 0 (MachineCode.withSizes stop (sortByKey Function.offset functions)) stop := by
  have hperm := perm_sortByKey Function.offset functions
  have hascending := ascending_sortByKey hdistinct
  obtain ⟨first, hmem, hzero⟩ := hfirst
  have hmem := hperm.mem_iff.mpr hmem
  have hstop := fun function hfunction => hstop function (hperm.mem_iff.mp hfunction)
  cases hsorted : sortByKey Function.offset functions with
  | nil =>
      rw [hsorted] at hmem
      cases hmem
  | cons least rest =>
      rw [hsorted] at hmem hascending hstop
      have hleast : least.offset = 0 := by
        rcases List.mem_cons.mp hmem with rfl | hmem
        · exact hzero
        · have := (List.pairwise_cons.mp hascending).1 first hmem
          omega
      exact hleast ▸ tiles_withSizes hascending hstop

/-- A function reaches beyond everything that lies before the functions behind it. -/
theorem exists_withSizes (stop : Nat) (hascending : Ascending functions) (hfunction : function ∈ functions) :
    ∃ sized ∈ MachineCode.withSizes stop functions, sized.name = function.name ∧ sized.offset = function.offset ∧
      ∀ place, place < stop → (∀ other ∈ functions, function.offset < other.offset → place < other.offset) →
        place < function.offset + sized.size := by
  induction functions with
  | nil => cases hfunction
  | cons first rest ih =>
      obtain ⟨hfirst, hrest⟩ := List.pairwise_cons.mp hascending
      rcases List.mem_cons.mp hfunction with rfl | hfunction
      · cases rest with
        | nil =>
            refine ⟨_, List.mem_cons_self, rfl, rfl, fun place hstop _ => ?_⟩
            show place < function.offset + (stop - function.offset)
            omega
        | cons next rest =>
            refine ⟨_, List.mem_cons_self, rfl, rfl, fun place _ hbehind => ?_⟩
            have hnext := hbehind next (List.mem_cons_of_mem _ List.mem_cons_self) (hfirst next List.mem_cons_self)
            show place < function.offset + (next.offset - function.offset)
            omega
      · obtain ⟨sized, hsized, hname, hoffset, hreach⟩ := ih hrest hfunction
        have hmem : sized ∈ MachineCode.withSizes stop (first :: rest) := by
          cases rest with
          | nil => cases hfunction
          | cons next rest => exact List.mem_cons_of_mem _ hsized
        refine ⟨sized, hmem, hname, hoffset, fun place hstop hbehind => hreach place hstop fun other hother => ?_⟩
        exact hbehind other (List.mem_cons_of_mem _ hother)

end

namespace CodeGeneration

/-- The labels of the trap and the routines. -/
def routineLabels (needs : Needs) : List CodeLabel :=
  optional needs.trap [.trap] ++
  optional needs.printInt [.printInt, .printIntPositive, .printIntDigit, .printIntWrite] ++
  optional needs.printBool [.printBool, .printBoolFalse, .printBoolWrite]

/-- The labels of the texts. -/
def textLabels (needs : Needs) : List CodeLabel :=
  optional needs.trap [.trapText] ++ optional needs.printBool [.trueText, .falseText]

theorem placements_support (needs : Needs) :
    placements (support needs) = routineLabels needs ++ textLabels needs := by
  obtain ⟨_ | _, _ | _, _ | _⟩ := needs <;> rfl

/-- The address of an operation's label. -/
def opAddr? : CodeLabel → Option Nat
  | .op addr => some addr
  | _ => none

/-- Operations stand in their order. -/
theorem Scripts.addresses {stackBased : Bool} {first : Nat} {entries : List (Op × Option Nat)}
    {scripts : List Script} (h : Scripts stackBased first entries scripts) :
    (Script.placements scripts.flatten).filterMap opAddr? = List.range' first entries.length := by
  induction entries generalizing first scripts with
  | nil =>
      cases h
      rfl
  | cons entry entries ih =>
      obtain ⟨script, rest, hscript, hrest, rfl⟩ := h.cons
      obtain ⟨code, rfl, hneat⟩ := neat_operation hscript
      have hdivide : (Script.placements code).filterMap opAddr? = [] := by
        rw [hneat.placements]
        cases entry.2.isSome && divides entry.1 <;> rfl
      rw [List.flatten_cons, placements_append, Script.placements, List.cons_append, List.filterMap_cons,
        List.filterMap_append, hdivide, ih hrest]
      rfl

/-- The labels that functions start with. -/
def functionLabels : List CodeLabel :=
  [.start, .main, .printInt, .printBool]

theorem exists_functionLabel {options : CodeOptions} {needs : Needs} {name : String}
    (h : name ∈ (MachineCode.starts options needs).map Prod.fst) : ∃ mark ∈ functionLabels, name = mark.name := by
  have hall : ∀ name ∈ (MachineCode.starts options needs).map Prod.fst,
      name ∈ functionLabels.map CodeLabel.name := by
    rw [MachineCode.starts]
    cases options.entryPoint <;> cases needs.printInt <;> cases needs.printBool <;> decide
  obtain ⟨mark, hmark, hname⟩ := List.mem_map.mp (hall name h)
  exact ⟨mark, hmark, hname.symm⟩

/-- No operation starts a function. -/
theorem Scripts.not_functions {stackBased : Bool} {first : Nat} {entries : List (Op × Option Nat)}
    {scripts : List Script} (h : Scripts stackBased first entries scripts) {mark : CodeLabel}
    (hmark : mark ∈ Script.placements scripts.flatten) : mark ∉ functionLabels := by
  rw [h.placements.mem_iff, List.mem_append] at hmark
  rcases hmark with hop | hdivide
  · obtain ⟨addr, -, rfl⟩ := List.mem_map.mp hop
    simp [functionLabels]
  · obtain ⟨i, op, depth, -, -, rfl⟩ := mem_divisions.mp hdivide
    simp [functionLabels]

/-- The labels of compiled code with their offsets, part by part. -/
structure Parts (options : CodeOptions) (program : Program) (depths : Flow.Depths)
    (marks : List (CodeLabel × Nat)) where
  start : List (CodeLabel × Nat)
  main : Nat
  body : List (CodeLabel × Nat)
  leave : Nat
  routines : List (CodeLabel × Nat)
  texts : List (CodeLabel × Nat)
  scripts : List Script
  marks_eq : marks = start ++ (.main, main) :: body ++ (.leave, leave) :: routines ++ texts
  start_labels : start.map Prod.fst = optional options.entryPoint [.start]
  body_scripts : Scripts options.stackBased 0 (program.ops.toList.zip depths.toList) scripts
  body_labels : body.map Prod.fst = Script.placements scripts.flatten
  routine_labels : routines.map Prod.fst = routineLabels (needs program.ops)
  text_labels : texts.map Prod.fst = textLabels (needs program.ops)

section
variable {options : CodeOptions} {program : Program} {depths : Flow.Depths} {script : Script}
  {assembly : Assembly CodeLabel} {machine : MachineCode} {marks : List (CodeLabel × Nat)}

theorem Parts.main_mem (parts : Parts options program depths marks) : (.main, parts.main) ∈ marks := by
  obtain ⟨start, main, body, leave, routines, texts, scripts, rfl, -⟩ := parts
  simp

theorem Generated.exists_parts (h : Generated options program depths script assembly machine) :
    Nonempty (Parts options program depths assembly.code.marks) := by
  obtain ⟨prologue, scripts, -, hscripts, rfl⟩ := script_eq_ok h.script_eq
  have hlabels := h.made.labels
  simp only [placements_append, Script.placements, placements_code, placements_support] at hlabels
  rw [← List.append_assoc] at hlabels
  obtain ⟨before, texts, hmarks, hbefore, htexts⟩ := List.map_eq_append_iff.mp hlabels
  obtain ⟨before, routines, rfl, hbefore, hroutines⟩ := List.map_eq_append_iff.mp hbefore
  obtain ⟨before, leave, rfl, hbefore, hleave⟩ := List.map_eq_append_iff.mp hbefore
  obtain ⟨before, body, rfl, hbefore, hbody⟩ := List.map_eq_append_iff.mp hbefore
  obtain ⟨start, main, rfl, hstart, hmain⟩ := List.map_eq_append_iff.mp hbefore
  obtain ⟨⟨_, leave⟩, rfl, rfl⟩ := List.map_eq_singleton_iff.mp hleave
  obtain ⟨⟨_, main⟩, rfl, rfl⟩ := List.map_eq_singleton_iff.mp hmain
  refine ⟨⟨start, main, body, leave, routines, texts, scripts, ?_, ?_, hscripts, hbody, hroutines, htexts⟩⟩
  · rw [hmarks]
    simp
  · rw [hstart]
    cases options.entryPoint <;> rfl

theorem trapText_mem_iff : .trapText ∈ namedLabels options program.ops depths ↔ (needs program.ops).trap = true := by
  simp [namedLabels, named, mem_optional, mem_divisions]

theorem trueText_mem_iff :
    .trueText ∈ namedLabels options program.ops depths ↔ (needs program.ops).printBool = true := by
  simp [namedLabels, named, mem_optional, mem_divisions]

theorem Generated.offset?_text (h : Generated options program depths script assembly machine)
    (parts : Parts options program depths assembly.code.marks) {mark : CodeLabel} {offset : Nat}
    (htext : (mark, offset) ∈ parts.texts) (hmark : mark ∈ namedLabels options program.ops depths) :
    assembly.labels.offset? mark.name = some offset := by
  rw [h.resolved.offset?_of_mem hmark, ← h.mem_marks, parts.marks_eq]
  exact List.mem_append_right _ htext

theorem Generated.ascending_texts (h : Generated options program depths script assembly machine)
    (parts : Parts options program depths assembly.code.marks) :
    parts.texts.Pairwise fun first second => first.2 < second.2 := by
  have hascending := h.made.increasing
  rw [parts.marks_eq, List.pairwise_append] at hascending
  exact hascending.2.1

/-- The data begin with the first text. -/
theorem Generated.codeSize_eq (h : Generated options program depths script assembly machine)
    (parts : Parts options program depths assembly.code.marks) :
    machine.codeSize = (parts.texts.head?.map Prod.snd).getD assembly.code.reach := by
  have htexts := parts.text_labels
  rw [textLabels] at htexts
  rw [h.machine_eq]
  show MachineCode.dataStart assembly = _
  simp only [MachineCode.dataStart, List.map_cons, List.map_nil, List.filterMap_cons, List.filterMap_nil]
  cases htrap : (needs program.ops).trap with
  | true =>
      rw [htrap] at htexts
      obtain ⟨⟨_, offset⟩, rest, hcons, rfl, hrest⟩ := List.map_eq_cons_iff.mp htexts
      rw [h.offset?_text parts (hcons ▸ List.mem_cons_self) (trapText_mem_iff.mpr htrap), hcons]
      cases hbool : (needs program.ops).printBool with
      | true =>
          rw [hbool] at hrest
          obtain ⟨⟨_, offset'⟩, rest', rfl, rfl, -⟩ := List.map_eq_cons_iff.mp hrest
          have htext : (.trueText, offset') ∈ parts.texts := by
            rw [hcons]
            exact List.mem_cons_of_mem _ List.mem_cons_self
          rw [h.offset?_text parts htext (trueText_mem_iff.mpr hbool)]
          have hascending := h.ascending_texts parts
          rw [hcons, List.pairwise_cons] at hascending
          have hlt : offset < offset' := hascending.1 _ List.mem_cons_self
          simp [Nat.min_eq_left (Nat.le_of_lt hlt)]
      | false =>
          rw [h.resolved.offset?_of_notMem (mt trueText_mem_iff.mp (by simp [hbool]))]
          rfl
  | false =>
      rw [htrap] at htexts
      rw [h.resolved.offset?_of_notMem (mt trapText_mem_iff.mp (by simp [htrap]))]
      cases hbool : (needs program.ops).printBool with
      | true =>
          rw [hbool] at htexts
          obtain ⟨⟨_, offset⟩, rest, hcons, rfl, -⟩ := List.map_eq_cons_iff.mp htexts
          rw [h.offset?_text parts (hcons ▸ List.mem_cons_self) (trueText_mem_iff.mpr hbool), hcons]
          rfl
      | false =>
          rw [hbool] at htexts
          have hnil : parts.texts = [] := List.map_eq_nil_iff.mp htexts
          rw [h.resolved.offset?_of_notMem (mt trueText_mem_iff.mp (by simp [hbool])), hnil]
          exact Process.size_bytes assembly.code

theorem Generated.codeSize_le (h : Generated options program depths script assembly machine)
    (parts : Parts options program depths assembly.code.marks) : machine.codeSize ≤ assembly.code.reach := by
  rw [h.codeSize_eq parts]
  cases htexts : parts.texts with
  | nil => exact Nat.le_refl _
  | cons entry rest =>
      have hentry : entry ∈ assembly.code.marks := by
        rw [parts.marks_eq, htexts]
        simp
      exact Nat.le_of_lt (h.made.offset_lt hentry)

/-- All labels except those of texts lie before the data. -/
theorem Generated.lt_codeSize (h : Generated options program depths script assembly machine)
    (parts : Parts options program depths assembly.code.marks) {entry : CodeLabel × Nat}
    (hentry : entry ∈ assembly.code.marks) (htext : entry.1 ∉ textLabels (needs program.ops)) :
    entry.2 < machine.codeSize := by
  have hbefore : entry ∈ parts.start ++ (.main, parts.main) :: parts.body ++
      (.leave, parts.leave) :: parts.routines := by
    rw [parts.marks_eq] at hentry
    refine (List.mem_append.mp hentry).resolve_right fun hmem => htext ?_
    rw [← parts.text_labels]
    exact List.mem_map_of_mem hmem
  rw [h.codeSize_eq parts]
  cases htexts : parts.texts with
  | nil => exact h.made.offset_lt hentry
  | cons text rest =>
      have hascending := h.made.increasing
      rw [parts.marks_eq, htexts, List.pairwise_append] at hascending
      exact hascending.2.2 entry hbefore text List.mem_cons_self

/-- A function that was found begins at its label. -/
theorem Generated.label_of_found (h : Generated options program depths script assembly machine)
    {function : Function} (hfunction : function ∈ MachineCode.found options (needs program.ops) assembly.labels) :
    ∃ mark ∈ functionLabels, function.name = mark.name ∧ (mark, function.offset) ∈ assembly.code.marks := by
  obtain ⟨start, hstart, hfound⟩ := List.mem_filterMap.mp hfunction
  obtain ⟨offset, hoffset, rfl⟩ := Option.map_eq_some_iff.mp hfound
  obtain ⟨mark, hmark, hname⟩ := exists_functionLabel (List.mem_map_of_mem hstart)
  obtain ⟨other, -, hother, hplace⟩ := h.resolved.exists_label hoffset
  obtain rfl := CodeLabel.name_injective (hother.trans hname)
  exact ⟨other, hmark, hname, h.mem_marks.mpr hplace⟩

/-- The functions that are asked for are found. -/
theorem Generated.exists_found (h : Generated options program depths script assembly machine) {mark : CodeLabel}
    {offset : Nat} (hmark : (mark, offset) ∈ assembly.code.marks)
    (hnamed : mark ∈ namedLabels options program.ops depths)
    (hstart : mark.name ∈ (MachineCode.starts options (needs program.ops)).map Prod.fst) :
    ∃ function ∈ MachineCode.found options (needs program.ops) assembly.labels,
      function.name = mark.name ∧ function.offset = offset := by
  obtain ⟨start, hstart, hname⟩ := List.mem_map.mp hstart
  refine ⟨⟨start.1, offset, 0, start.2⟩, List.mem_filterMap.mpr ⟨start, hstart, ?_⟩, hname, rfl⟩
  rw [hname, h.resolved.offset?_of_mem hnamed, h.mem_marks.mp hmark]
  rfl

theorem Generated.found_distinct (h : Generated options program depths script assembly machine) :
    ((MachineCode.found options (needs program.ops) assembly.labels).map Function.offset).Nodup := by
  have hnames : (MachineCode.starts options (needs program.ops)).Pairwise fun first second =>
      first.1 ≠ second.1 := by
    rw [MachineCode.starts]
    cases options.entryPoint <;> cases (needs program.ops).printInt <;> cases (needs program.ops).printBool <;> decide
  rw [List.Nodup, List.pairwise_map, MachineCode.found, List.pairwise_filterMap]
  refine hnames.imp ?_
  intro first second hne function hfunction function' hfunction' heq
  obtain ⟨offset, hoffset, rfl⟩ := Option.map_eq_some_iff.mp hfunction
  obtain ⟨offset', hoffset', rfl⟩ := Option.map_eq_some_iff.mp hfunction'
  obtain ⟨mark, -, hname, hplace⟩ := h.resolved.exists_label hoffset
  obtain ⟨mark', -, hname', hplace'⟩ := h.resolved.exists_label hoffset'
  obtain rfl : offset = offset' := heq
  obtain rfl := h.offset_injective hplace hplace'
  exact hne (hname.symm.trans hname')

/-- Some function begins with the code. -/
theorem Generated.found_first (h : Generated options program depths script assembly machine) :
    ∃ function ∈ MachineCode.found options (needs program.ops) assembly.labels, function.offset = 0 := by
  obtain ⟨prologue, scripts, -, -, hscript⟩ := script_eq_ok h.script_eq
  have hstarts := h.made.starts
  have hfirst : ∀ mark, assembly.code.marks.head? = some (mark, 0) → mark ∈ namedLabels options program.ops depths →
      mark.name ∈ (MachineCode.starts options (needs program.ops)).map Prod.fst →
      ∃ function ∈ MachineCode.found options (needs program.ops) assembly.labels, function.offset = 0 := by
    intro mark hhead hnamed hstart
    obtain ⟨function, hfunction, -, hoffset⟩ := h.exists_found (List.mem_of_mem_head? hhead) hnamed hstart
    exact ⟨function, hfunction, hoffset⟩
  rw [hscript] at hstarts
  cases hentry : options.entryPoint with
  | true =>
      rw [hentry] at hstarts
      refine hfirst .start (hstarts _ _ rfl) ?_ ?_
      · simp [namedLabels, named, mem_optional, hentry]
      · simp [MachineCode.starts, mem_optional, hentry]
  | false =>
      rw [hentry] at hstarts
      refine hfirst .main (hstarts _ _ rfl) ?_ ?_
      · simp [namedLabels, named]
      · simp [MachineCode.starts]

theorem functionLabel_not_text {mark : CodeLabel} {needs : Needs} (h : mark ∈ functionLabels) :
    mark ∉ textLabels needs := by
  revert mark
  obtain ⟨_ | _, _ | _, _ | _⟩ := needs <;> decide

theorem Generated.tiles_functions (h : Generated options program depths script assembly machine)
    (parts : Parts options program depths assembly.code.marks) : Tiles 0 machine.functions machine.codeSize := by
  have hstop : ∀ function ∈ MachineCode.found options (needs program.ops) assembly.labels,
      function.offset < machine.codeSize := by
    intro function hfunction
    obtain ⟨mark, hmark, -, hentry⟩ := h.label_of_found hfunction
    exact h.lt_codeSize parts hentry (functionLabel_not_text hmark)
  have htiles := tiles_sortByKey h.found_distinct h.found_first hstop
  rw [h.machine_eq] at htiles ⊢
  exact htiles

/-- The addresses of operations with their offsets. -/
def opMarks (marks : List (CodeLabel × Nat)) : List (Nat × Nat) :=
  marks.filterMap fun entry => (opAddr? entry.1).map (·, entry.2)

theorem map_fst_opMarks (marks : List (CodeLabel × Nat)) :
    (opMarks marks).map Prod.fst = (marks.map Prod.fst).filterMap opAddr? := by
  rw [opMarks, List.map_filterMap, List.filterMap_map]
  congr 1
  funext entry
  exact (Option.map_map ..).trans Option.map_id'

theorem mem_opMarks {addr offset : Nat} :
    (addr, offset) ∈ opMarks marks ↔ (.op addr, offset) ∈ marks := by
  rw [opMarks, List.mem_filterMap]
  constructor
  · rintro ⟨⟨mark, place⟩, hentry, haddr⟩
    cases mark <;> cases haddr
    exact hentry
  · exact fun hentry => ⟨_, hentry, rfl⟩

/-- No label outside of the program's function is one of an operation. -/
theorem Parts.opMarks_eq (parts : Parts options program depths marks) :
    opMarks marks = opMarks parts.body := by
  have hnone : ∀ entries : List (CodeLabel × Nat), (entries.map Prod.fst).filterMap opAddr? = [] →
      opMarks entries = [] := by
    intro entries h
    rwa [← map_fst_opMarks, List.map_eq_nil_iff] at h
  have hstart : opMarks parts.start = [] := by
    refine hnone _ ?_
    rw [parts.start_labels]
    cases options.entryPoint <;> rfl
  have hroutines : opMarks parts.routines = [] := by
    refine hnone _ ?_
    rw [parts.routine_labels]
    obtain ⟨_ | _, _ | _, _ | _⟩ := needs program.ops <;> rfl
  have htexts : opMarks parts.texts = [] := by
    refine hnone _ ?_
    rw [parts.text_labels]
    obtain ⟨_ | _, _ | _, _ | _⟩ := needs program.ops <;> rfl
  have happend : ∀ xs ys, opMarks (xs ++ ys) = opMarks xs ++ opMarks ys :=
    fun _ _ => List.filterMap_append
  have hmain : ∀ xs, opMarks ((.main, parts.main) :: xs) = opMarks xs := fun _ => rfl
  have hleave : ∀ xs, opMarks ((.leave, parts.leave) :: xs) = opMarks xs := fun _ => rfl
  conv_lhs => rw [parts.marks_eq]
  simp only [happend, hmain, hleave, hstart, hroutines, htexts, List.nil_append, List.append_nil]

theorem Parts.addresses (parts : Parts options program depths marks)
    (hsize : depths.size = program.ops.size) :
    (opMarks marks).map Prod.fst = List.range program.ops.size := by
  rw [parts.opMarks_eq, map_fst_opMarks, parts.body_labels, parts.body_scripts.addresses,
    length_entries hsize, List.range_eq_range']

theorem increasing_opMarks (hmade : assembly.code.Made script) :
    (opMarks assembly.code.marks).Pairwise fun first second => first.2 < second.2 := by
  rw [opMarks, List.pairwise_filterMap]
  refine hmade.increasing.imp ?_
  intro first second hlt entry hentry entry' hentry'
  obtain ⟨_, -, rfl⟩ := Option.map_eq_some_iff.mp hentry
  obtain ⟨_, -, rfl⟩ := Option.map_eq_some_iff.mp hentry'
  exact hlt

/-- The offsets of operations are those of their labels. -/
theorem Generated.map_snd_opMarks (h : Generated options program depths script assembly machine)
    (parts : Parts options program depths assembly.code.marks) :
    (opMarks assembly.code.marks).map Prod.snd = assembly.opOffsets.toList := by
  have hmarks : (opMarks assembly.code.marks).map (fun entry => some entry.2) =
      (opMarks assembly.code.marks).map fun entry => assembly.code.offset? (.op entry.1) := by
    refine List.map_congr_left fun entry hentry => ?_
    exact (h.mem_marks.mp (mem_opMarks.mp hentry)).symm
  have hops := h.resolved.operations
  rw [opLabels, ← parts.addresses h.size_depths, List.map_map, List.map_map] at hops
  refine (List.map_injective_iff.mpr (Option.some_injective Nat)) ?_
  rw [List.map_map]
  exact hmarks.trans hops

/-- Of the functions, only routines lie behind the one of the program. -/
theorem Parts.routine_of_behind (parts : Parts options program depths marks)
    (hascending : marks.Pairwise fun first second => first.2 < second.2) {entry : CodeLabel × Nat}
    (hentry : entry ∈ marks) (hfunction : entry.1 ∈ functionLabels) (hbehind : parts.main < entry.2) :
    entry ∈ parts.routines := by
  rw [parts.marks_eq] at hentry hascending
  rcases List.mem_append.mp hentry with hentry | htext
  · rw [List.append_assoc, List.append_assoc, List.pairwise_append] at hascending
    rcases List.mem_append.mp hentry with hentry | hentry
    · rcases List.mem_append.mp hentry with hstart | hentry
      · have := hascending.2.2 entry hstart _ List.mem_cons_self
        omega
      · rcases List.mem_cons.mp hentry with rfl | hbody
        · omega
        · have hmark := parts.body_labels ▸ List.mem_map_of_mem hbody
          exact absurd hfunction (parts.body_scripts.not_functions hmark)
    · rcases List.mem_cons.mp hentry with rfl | hroutine
      · simp [functionLabels] at hfunction
      · exact hroutine
  · have hmark := parts.text_labels ▸ List.mem_map_of_mem htext
    exact absurd hmark (functionLabel_not_text hfunction)

/-- The program's function holds the code of all operations. -/
theorem Generated.inside_main (h : Generated options program depths script assembly machine)
    (parts : Parts options program depths assembly.code.marks) :
    ∃ main ∈ machine.functions, main.name = CodeLabel.name .main ∧ main.offset = parts.main ∧
      ∀ entry ∈ opMarks assembly.code.marks, main.offset < entry.2 ∧ entry.2 < main.offset + main.size := by
  obtain ⟨found, hfound, hname, hoffset⟩ := h.exists_found parts.main_mem
    (by simp [namedLabels, named]) (by simp [MachineCode.starts])
  have hperm := perm_sortByKey Function.offset (MachineCode.found options (needs program.ops) assembly.labels)
  have hsized := exists_withSizes machine.codeSize (ascending_sortByKey h.found_distinct)
    (hperm.mem_iff.mpr hfound)
  obtain ⟨main, hmain, hmainName, hmainOffset, hreach⟩ := hsized
  have hfunctions : main ∈ machine.functions := by
    rw [h.machine_eq] at hmain ⊢
    exact hmain
  refine ⟨main, hfunctions, hmainName.trans hname, hmainOffset.trans hoffset, ?_⟩
  rintro ⟨addr, offset⟩ hentry
  have hmark : (CodeLabel.op addr, offset) ∈ assembly.code.marks := mem_opMarks.mp hentry
  rw [parts.opMarks_eq, mem_opMarks] at hentry
  -- Of the labels only the order matters: main, the operation, the routines.
  have hascending := h.made.increasing
  rw [parts.marks_eq, List.append_assoc, List.append_assoc, List.pairwise_append] at hascending
  obtain ⟨hfirst, hrest⟩ := List.pairwise_cons.mp hascending.2.1
  rw [hmainOffset]
  refine ⟨hoffset ▸ hfirst _ (List.mem_append_left _ hentry), hreach offset ?_ fun other hother hbehind => ?_⟩
  · refine h.lt_codeSize parts hmark ?_
    simp [textLabels, mem_optional]
  · obtain ⟨mark, hfunction, -, hplace⟩ := h.label_of_found (hperm.mem_iff.mp hother)
    have hroutine := parts.routine_of_behind h.made.increasing hplace hfunction (hoffset ▸ hbehind)
    exact (List.pairwise_append.mp hrest).2.2 _ hentry (mark, other.offset)
      (List.mem_append_left _ (List.mem_cons_of_mem _ hroutine))

end

end CodeGeneration

end X64

open X64

/-- Functions tile the code up to the data, without a gap and without an empty one. There is an offset for
every operation; they increase and stay within the program's own function. -/
theorem Program.compile_tiles {program : Program} {options : CodeOptions} {machine : MachineCode}
    (h : program.compile options = .ok machine) :
    Tiles 0 machine.functions machine.codeSize ∧ machine.codeSize ≤ machine.bytes.size ∧
    machine.opOffsets.size = program.ops.size ∧
    (∀ addr < program.ops.size, machine.code.offset? (.op addr) = machine.opOffsets[addr]?) ∧
    machine.opOffsets.toList.Pairwise (· < ·) ∧
    ∃ main ∈ machine.functions, main.name = "main" ∧ main.offset = machine.mainOffset ∧
      ∀ offset ∈ machine.opOffsets, main.offset < offset ∧ offset < main.offset + main.size := by
  obtain ⟨depths, script, assembly, hgenerated⟩ := CodeGeneration.exists_generated h
  obtain ⟨parts⟩ := hgenerated.exists_parts
  have hopOffsets : machine.opOffsets = assembly.opOffsets := by rw [hgenerated.machine_eq]; rfl
  have hmarks := hgenerated.map_snd_opMarks parts
  rw [hopOffsets, MachineCode.bytes, hgenerated.code_eq]
  refine ⟨hgenerated.tiles_functions parts, ?_, hgenerated.resolved.size_opOffsets,
    fun addr haddr => hgenerated.resolved.opOffset haddr, ?_, ?_⟩
  · rw [Process.size_bytes]
    exact hgenerated.codeSize_le parts
  · rw [← hmarks, List.pairwise_map]
    exact CodeGeneration.increasing_opMarks hgenerated.made
  · obtain ⟨main, hmain, hname, hoffset, hinside⟩ := hgenerated.inside_main parts
    refine ⟨main, hmain, hname, ?_, ?_⟩
    · rw [hgenerated.machine_eq, MachineCode.mainOffset_describe hgenerated.resolved,
        hgenerated.mem_marks.mp parts.main_mem, hoffset]
      rfl
    · intro offset hmem
      rw [← Array.mem_toList_iff, ← hmarks] at hmem
      obtain ⟨entry, hentry, rfl⟩ := List.mem_map.mp hmem
      exact hinside entry hentry

/-- A program with all routines and texts. Its own function has the exit and the trap in it, and behind the
exit the offset of an operation that has no code except that it is not to be reached. -/
theorem Program.compile_tiles_routines :
    let program : Program :=
      { ops := #[.push 6, .push 3, .binary (.arith .div), .print .int, .push 1, .print .bool, .push 0, .exit,
          .print .int]
        lines := #[1, 1, 1, 1, 2, 2, 3, 3, 3] }
    let options : CodeOptions := { stackBased := false, entryPoint := true }
    ∃ machine, program.compile options = .ok machine ∧
      machine.functions.map Function.name = ["_start", "main", "__gotoc_print_int", "__gotoc_print_bool"] ∧
      Tiles 0 machine.functions machine.codeSize ∧ machine.codeSize < machine.bytes.size ∧
      machine.opOffsets.size = 9 ∧ machine.opOffsets.toList.Pairwise (· < ·) := by
  intro program options
  have hcompiles : (program.compile options).toOption.any (fun machine =>
      decide (machine.functions.map Function.name =
        ["_start", "main", "__gotoc_print_int", "__gotoc_print_bool"] ∧
        machine.codeSize < machine.bytes.size)) = true := by decide +kernel
  obtain ⟨machine, hcompile, hmachine⟩ := exists_ok_of_any hcompiles
  obtain ⟨hfunctions, hsize⟩ := of_decide_eq_true hmachine
  obtain ⟨htiles, -, hcount, -, hincreasing, -⟩ := Program.compile_tiles hcompile
  exact ⟨machine, hcompile, hfunctions, htiles, hsize, hcount, hincreasing⟩

end GotoLang
