import GotoLang.Proofs.Optimize.Fold
import GotoLang.Proofs.X64.Marks

/-!
# Names in compiled code

No two labels of a compiled program have the same name or the same offset, and every branch goes to an offset
with a name. Labels of operations have a name only if some transfer goes there, which is decided by looking at
all operations; code, on the other hand, is generated along the depths. Both agree on what a branch needs.
-/
namespace GotoLang.X64

open Script

namespace CodeLabel

/-- Names do not look like a comment or an instruction. -/
theorem head_name (mark : CodeLabel) : ∃ c ∈ mark.name.toList.head?, c ≠ '\t' ∧ c ≠ '#' := by
  have hplain : ∀ mark ∈ plain, mark.name.toList.head?.any (fun c => c ≠ '\t' ∧ c ≠ '#') = true := by decide
  rcases plain_or_numbered mark with h | ⟨addr, rfl⟩ | ⟨addr, rfl⟩
  · obtain ⟨c, hhead, hc⟩ := (Option.any_eq_true _ _).mp (hplain mark h)
    exact ⟨c, hhead, of_decide_eq_true hc⟩
  · rw [toList_name_op]
    exact ⟨'.', rfl, by decide⟩
  · rw [toList_name_divide]
    exact ⟨'.', rfl, by decide⟩

end CodeLabel

namespace MachineCode

theorem perm_pairs_nameTargets (targets : Array Bool) (opOffsets : Array Nat) (map : LabelMap) :
    (nameTargets targets opOffsets map).pairs.Perm ((opOffsets.toList.zipIdx.filterMap fun entry =>
      if targets.getD entry.2 false then some (entry.1, CodeLabel.name (.op entry.2)) else none) ++ map.pairs) := by
  rw [nameTargets]
  induction opOffsets.toList.zipIdx generalizing map with
  | nil => exact .refl _
  | cons entry entries ih =>
      rw [List.foldl_cons, List.filterMap_cons]
      cases targets.getD entry.2 false with
      | false => exact ih map
      | true => exact (ih _).trans (((LabelMap.perm_pairs_add map _ _).append_left _).trans List.perm_middle)

theorem named_nameTargets (targets : Array Bool) (opOffsets : Array Nat) {map : LabelMap} (h : map.Named) :
    (nameTargets targets opOffsets map).Named := by
  rw [nameTargets]
  induction opOffsets.toList.zipIdx generalizing map with
  | nil => exact h
  | cons entry entries ih =>
      rw [List.foldl_cons]
      split
      · exact ih (h.add _ _)
      · exact ih h

end MachineCode

namespace CodeGeneration

/-- The name of a label. That of an operation has one if some transfer goes there. -/
def name? (program : Program) : CodeLabel → Option String
  | .op addr => if (Op.targets program.ops).getD addr false then some (CodeLabel.name (.op addr)) else none
  | mark => some mark.name

/-- What is known by name about a label. -/
def listed (program : Program) (code : Assembled CodeLabel) (mark : CodeLabel) : Option (Nat × String) :=
  (name? program mark).bind fun name => (code.offset? mark).map (·, name)

section
variable {options : CodeOptions} {program : Program} {depths : Flow.Depths} {script : Script}
  {code : Assembled CodeLabel} {assembly : Assembly CodeLabel} {machine : MachineCode}
  {mark : CodeLabel} {name : String} {offset : Nat}

theorem name_of_name? (h : name? program mark = some name) : name = mark.name := by
  cases mark with
  | op addr =>
      rw [name?] at h
      split at h <;> cases h
      rfl
  | _ =>
      cases h
      rfl

theorem name?_of_ne (h : ∀ addr, mark ≠ .op addr) : name? program mark = some mark.name := by
  cases mark with
  | op addr => exact absurd rfl (h addr)
  | _ => rfl

theorem listed_eq_some :
    listed program code mark = some (offset, name) ↔ name? program mark = some name ∧ code.offset? mark = some offset := by
  rw [listed, Option.bind_eq_some_iff]
  constructor
  · rintro ⟨_, hname, hentry⟩
    obtain ⟨_, hoffset, heq⟩ := Option.map_eq_some_iff.mp hentry
    cases heq
    exact ⟨hname, hoffset⟩
  · rintro ⟨hname, hoffset⟩
    exact ⟨name, hname, by rw [hoffset]; rfl⟩

/-- Operations that were numbered in their order have the entries of their labels. -/
theorem filterMap_zipIdx {first : Nat} {offsets : List Nat}
    (h : (List.range' first offsets.length).map (fun addr => code.offset? (.op addr)) = offsets.map some) :
    ((offsets.zipIdx first).filterMap fun entry => if (Op.targets program.ops).getD entry.2 false then
      some (entry.1, CodeLabel.name (.op entry.2)) else none) =
      (List.range' first offsets.length).filterMap fun addr => listed program code (.op addr) := by
  induction offsets generalizing first with
  | nil => rfl
  | cons offset offsets ih =>
      rw [List.length_cons, List.range'_succ, List.map_cons, List.map_cons] at h
      obtain ⟨hoffset, hrest⟩ := List.cons.inj h
      rw [List.length_cons, List.range'_succ, List.zipIdx_cons, List.filterMap_cons, List.filterMap_cons, ih hrest,
        listed, hoffset, name?]
      cases (Op.targets program.ops).getD first false <;> rfl

/-- What a compiled program tells about labels is what is known about them. -/
theorem Generated.perm_labels (h : Generated options program depths script assembly machine) :
    machine.labels.Perm ((labels options program.ops depths).filterMap (listed program assembly.code)) := by
  have hops := h.resolved.operations
  have hsize : assembly.opOffsets.toList.length = program.ops.size := by
    rw [Array.length_toList, h.resolved.size_opOffsets]
  rw [opLabels, List.map_map, List.range_eq_range', ← hsize] at hops
  have hnamed : (namedLabels options program.ops depths).filterMap (listed program assembly.code) =
      (namedLabels options program.ops depths).filterMap fun mark =>
        (assembly.code.offset? mark).map (·, mark.name) := by
    refine List.filterMap_congr fun mark hmark => ?_
    rw [listed, name?_of_ne fun addr heq => op_notMem_namedLabels (heq ▸ hmark)]
    rfl
  rw [h.machine_eq, labels, List.filterMap_append, opLabels, List.filterMap_map, List.range_eq_range', ← hsize]
  refine (MachineCode.perm_pairs_nameTargets _ _ _).trans ?_
  rw [filterMap_zipIdx hops, hnamed]
  exact h.resolved.pairs.append_left _

theorem Generated.mem_labels (h : Generated options program depths script assembly machine) :
    (offset, name) ∈ machine.labels ↔
      ∃ mark, (mark, offset) ∈ assembly.code.marks ∧ name? program mark = some name := by
  rw [h.perm_labels.mem_iff, List.mem_filterMap]
  constructor
  · rintro ⟨mark, -, hentry⟩
    obtain ⟨hname, hoffset⟩ := listed_eq_some.mp hentry
    exact ⟨mark, h.mem_marks.mpr hoffset, hname⟩
  · rintro ⟨mark, hmark, hname⟩
    exact ⟨mark, h.mem_labels_of_mark hmark, listed_eq_some.mpr ⟨hname, h.mem_marks.mp hmark⟩⟩

/-- Offsets with a name are distinct. -/
theorem Generated.offsets_nodup (h : Generated options program depths script assembly machine) :
    (machine.labels.map Prod.fst).Nodup := by
  rw [(h.perm_labels.map Prod.fst).nodup_iff, List.Nodup, List.pairwise_map, List.pairwise_filterMap]
  refine h.disciplined.distinct.imp ?_
  rintro mark mark' hne ⟨offset, name⟩ hentry ⟨offset', name'⟩ hentry' rfl
  exact hne (h.offset_injective (listed_eq_some.mp hentry).2 (listed_eq_some.mp hentry').2)

/-- So each of them has one name. -/
theorem Generated.single_name (h : Generated options program depths script assembly machine) :
    ∀ entry ∈ machine.labelMap.entries, ∃ name, entry.2 = [name] := by
  have hnamed : machine.labelMap.Named := by
    rw [h.machine_eq]
    exact MachineCode.named_nameTargets _ _ h.resolved.offsets
  exact hnamed.single h.offsets_nodup

/-- Names are distinct since labels are. -/
theorem Generated.names_nodup (h : Generated options program depths script assembly machine) :
    (machine.labels.map Prod.snd).Nodup := by
  rw [(h.perm_labels.map Prod.snd).nodup_iff, List.Nodup, List.pairwise_map, List.pairwise_filterMap]
  refine h.disciplined.distinct.imp ?_
  rintro mark mark' hne ⟨offset, name⟩ hentry ⟨offset', name'⟩ hentry' rfl
  refine hne (CodeLabel.name_injective ?_)
  rw [← name_of_name? (listed_eq_some.mp hentry).1, ← name_of_name? (listed_eq_some.mp hentry').1]

theorem lt_size_of_op_mem {addr : Nat} (h : .op addr ∈ labels options program.ops depths) :
    addr < program.ops.size := by
  simpa [labels, opLabels, op_notMem_namedLabels] using h

theorem target?_of_uses {addr place : Nat} {op : Op} (h : .op place ∈ uses addr op) :
    ∃ target, op.target? = some target ∧ target.toNat = place := by
  cases op with
  | jump target => exact ⟨target, rfl, (CodeLabel.op.inj (List.mem_singleton.mp h)).symm⟩
  | jumpIf target => exact ⟨target, rfl, (CodeLabel.op.inj (List.mem_singleton.mp h)).symm⟩
  | print ty => cases ty <;> simp [uses, printer] at h
  | exit => simp [uses] at h
  | binary op => simp [uses, mem_optional] at h
  | _ => cases h

/-- What the code of an operation refers to has a name: for the target of a transfer there is a flag. -/
theorem name?_of_uses {addr : Nat} {op : Op} (hop : program.ops[addr]? = some op)
    (hmark : mark ∈ uses addr op) (hcreated : mark ∈ labels options program.ops depths) :
    name? program mark = some mark.name := by
  cases mark with
  | op place =>
      obtain ⟨target, htarget, rfl⟩ := target?_of_uses hmark
      have hflag := Fold.covers_targets program.ops addr op target hop htarget (lt_size_of_op_mem hcreated)
      exact if_pos hflag
  | _ => rfl

/-- Branches and addresses refer to labels with a name. -/
theorem Generated.mem_labels_of_target (h : Generated options program depths script assembly machine)
    {placed : Placed CodeLabel} (hplaced : placed ∈ assembly.code) (hmark : placed.instr.target? = some mark) :
    ∃ offset, placed.target = some offset ∧ (offset, mark.name) ∈ machine.labels := by
  obtain ⟨-, hclosed, hsize⟩ := Program.depths_spec h.depths_eq
  let known := (labels options program.ops depths).filter fun mark => name? program mark = some mark.name
  have hrefers : Refers known script := by
    refine refers_of_uses h.script_eq (fun mark hmark => ?_) fun addr op depth hop hdepth mark hmark => ?_
    · refine List.mem_filter.mpr ⟨mem_labels_named hmark, decide_eq_true ?_⟩
      exact name?_of_ne fun addr heq => op_notMem_named (heq ▸ hmark)
    · have hcreated : mark ∈ labels options program.ops depths :=
        uses_subset_labels hclosed hsize hop hdepth hmark
      exact List.mem_filter.mpr ⟨hcreated, decide_eq_true (name?_of_uses hop hmark hcreated)⟩
  obtain ⟨hcreated, hname⟩ := List.mem_filter.mp
    (hrefers placed.instr (h.made.emitted placed hplaced) mark hmark)
  obtain ⟨offset, hentry, hoffset⟩ := h.made.exists_offset h.distinct
    (h.disciplined.placed.mem_iff.mpr hcreated)
  refine ⟨offset, ?_, h.mem_labels.mpr ⟨mark, hentry, of_decide_eq_true hname⟩⟩
  rw [h.made.linked placed hplaced, hmark, Option.map_some, hoffset]
  rfl

/-- Functions have the name of their label. -/
theorem Generated.mem_labels_of_function (h : Generated options program depths script assembly machine)
    {function : Function} (hfunction : function ∈ machine.functions) :
    (function.offset, function.name) ∈ machine.labels := by
  rw [h.machine_eq] at hfunction ⊢
  have hmem := List.mem_map_of_mem (f := fun function : Function => (function.name, function.offset)) hfunction
  have hpair := LabelMap.mem_pairs_of_offset? (MachineCode.mem_functions.mp hmem).2
  exact (MachineCode.perm_pairs_nameTargets _ _ _).mem_iff.mpr (List.mem_append_right _ hpair)

end

end CodeGeneration

end GotoLang.X64
