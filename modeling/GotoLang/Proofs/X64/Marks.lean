import GotoLang.Proofs.X64.LabelDiscipline
import GotoLang.X64.MachineCode

/-!
# Labels in assembled code

The code that an assembler makes of a script has the labels of the script in their order. Since every instruction
has at least one byte, no two labels have the same offset, and their offsets increase along the script. So what a
compiled program tells about its labels can be read off the script.
-/
namespace GotoLang.X64

open Script

theorem lookup_of_mem {α β : Type} [DecidableEq α] {entries : List (α × β)} {key : α} {value : β}
    (hkeys : (entries.map Prod.fst).Nodup) (hentry : (key, value) ∈ entries) : entries.lookup key = some value := by
  obtain ⟨before, after, rfl⟩ := List.append_of_mem hentry
  rw [List.map_append, List.nodup_append] at hkeys
  rw [List.lookup_eq_some_iff]
  refine ⟨before, after, rfl, fun entry hbefore => ?_⟩
  have hne := hkeys.2.2 entry.1 (List.mem_map_of_mem hbefore) key List.mem_cons_self
  exact bne_iff_ne.mpr hne.symm

theorem mem_of_lookup {α β : Type} [DecidableEq α] {entries : List (α × β)} {key : α} {value : β}
    (h : entries.lookup key = some value) : (key, value) ∈ entries := by
  obtain ⟨before, after, rfl, -⟩ := List.lookup_eq_some_iff.mp h
  exact List.mem_append_right _ List.mem_cons_self

/-- Labels are placed in the order of the script. -/
theorem Assembler.marks_run {script : Script} {assembler final : Assembler CodeLabel}
    (hrun : script.foldlM perform assembler = .ok final) :
    final.marks = assembler.marks ++ placements script := by
  induction script generalizing assembler with
  | nil =>
      cases hrun
      exact (List.append_nil _).symm
  | cons directive script ih =>
      obtain ⟨next, hdo, hrun⟩ := run_cons hrun
      rw [ih hrun]
      cases directive with
      | emit instr =>
          cases hdo
          rw [marks_emit]
          rfl
      | place mark =>
          rw [marks_place hdo, List.append_assoc]
          rfl

namespace Assembled

section
variable {label : Type} {code : Assembled label}

/-- Instructions lie one behind the other, and none of them is empty. -/
theorem Consecutive.increasing {offset : Nat} (h : Consecutive offset code) (hsolid : code.Solid) :
    code.Pairwise (fun first second => first.offset < second.offset) ∧
      ∀ placed ∈ code, offset ≤ placed.offset ∧ placed.offset < offset + code.reach := by
  induction h with
  | nil => exact ⟨.nil, fun _ hmem => absurd hmem List.not_mem_nil⟩
  | @cons placed rest hsize hrest ih =>
      obtain ⟨hpairs, hbounds⟩ := ih fun other hother => hsolid other (List.mem_cons_of_mem _ hother)
      have hpos := hsize.pos (hsolid placed List.mem_cons_self)
      rw [reach_cons, Placed.length_bytes hsize]
      refine ⟨.cons (fun other hother => ?_) hpairs, fun other hother => ?_⟩
      · have := hbounds other hother
        omega
      · rcases List.mem_cons.mp hother with rfl | hother
        · omega
        · have := hbounds other hother
          omega

end

/-- What code that was made of a script has in common with it. -/
structure Made (code : Assembled CodeLabel) (script : Script) : Prop where
  consecutive : code.Consecutive 0
  linked : code.Linked
  solid : code.Solid
  /-- The labels stand in their order. -/
  labels : code.marks.map Prod.fst = placements script
  /-- Every instruction comes from the script. -/
  emitted : ∀ placed ∈ code, .emit placed.instr ∈ script
  /-- A label at the beginning has the first instruction. -/
  starts : ∀ mark rest, script = .place mark :: rest → code.marks.head? = some (mark, 0)

theorem map_fst_marks (code : Assembled CodeLabel) :
    code.marks.map Prod.fst = (code.map Placed.toLine).filterMap Line.mark := by
  rw [marks, List.map_filterMap, List.filterMap_map]
  congr 1
  funext placed
  show (placed.mark.map fun mark => (mark, placed.offset)).map Prod.fst = placed.mark
  cases placed.mark <;> rfl

theorem made_of_run {script : Script} {final : Assembler CodeLabel} (hsolid : Script.Solid script)
    (hrun : script.foldlM Assembler.perform {} = .ok final) (hdone : final.waiting = none) :
    Made (Assembler.assemble final.lines.toList) script := by
  obtain ⟨hlines, hconsecutive, hlinked⟩ := Assembler.assemble_spec final.lines.toList
  refine ⟨hconsecutive, hlinked, Assembler.solid_assemble hsolid hrun, ?_,
    fun _ => Assembler.mem_of_mem_assemble hrun, ?_⟩
  · have hmarks := Assembler.marks_run hrun
    rw [Assembler.marks, hdone, Option.toList_none, List.append_nil] at hmarks
    rw [map_fst_marks, hlines, hmarks]
    rfl
  · rintro mark rest rfl
    obtain ⟨next, hdo, hrun⟩ := Assembler.run_cons hrun
    obtain ⟨-, -, rfl⟩ := Assembler.place_eq_ok hdo
    obtain ⟨instr, more, hmore⟩ := Assembler.lines_run_waiting hrun rfl hdone
    rw [hmore] at hlines hconsecutive ⊢
    obtain ⟨placed, after, hcode, hplaced, -⟩ := List.map_eq_cons_iff.mp hlines
    rw [hcode] at hconsecutive ⊢
    have hmark : placed.mark = some mark := by rw [hplaced]
    have hoffset : placed.offset = 0 :=
      (Consecutive.at (show Consecutive 0 ([] ++ placed :: after) from hconsecutive)).1
    simp [marks, hmark, hoffset]

namespace Made
variable {code : Assembled CodeLabel} {script : Script}

/-- Offsets of labels increase. -/
theorem increasing (h : Made code script) :
    code.marks.Pairwise (fun first second => first.2 < second.2) := by
  rw [Assembled.marks, List.pairwise_filterMap]
  refine (h.consecutive.increasing h.solid).1.imp ?_
  intro first second hlt mark hmark mark' hmark'
  obtain ⟨_, -, rfl⟩ := Option.map_eq_some_iff.mp hmark
  obtain ⟨_, -, rfl⟩ := Option.map_eq_some_iff.mp hmark'
  exact hlt

/-- Labels lie within the code. -/
theorem offset_lt (h : Made code script) {entry : CodeLabel × Nat} (hentry : entry ∈ code.marks) :
    entry.2 < code.reach := by
  obtain ⟨placed, hplaced, hmark⟩ := List.mem_filterMap.mp hentry
  obtain ⟨_, -, rfl⟩ := Option.map_eq_some_iff.mp hmark
  have := ((h.consecutive.increasing h.solid).2 placed hplaced).2
  omega

theorem offset?_eq_some (h : Made code script) (hnodup : (placements script).Nodup) {mark : CodeLabel}
    {offset : Nat} (hentry : (mark, offset) ∈ code.marks) : code.offset? mark = some offset := by
  rw [← h.labels] at hnodup
  exact lookup_of_mem hnodup hentry

theorem exists_offset (h : Made code script) (hnodup : (placements script).Nodup) {mark : CodeLabel}
    (hmark : mark ∈ placements script) :
    ∃ offset, (mark, offset) ∈ code.marks ∧ code.offset? mark = some offset := by
  rw [← h.labels] at hmark
  obtain ⟨⟨_, offset⟩, hentry, rfl⟩ := List.mem_map.mp hmark
  exact ⟨offset, hentry, h.offset?_eq_some hnodup hentry⟩

/-- Within two gigabytes every label can be reached. -/
theorem reaches (h : Made code script) (hsize : code.reach ≤ 2147483648) :
    code.all Placed.reaches = true := by
  refine List.all_eq_true.mpr fun placed hplaced => ?_
  cases hmark : placed.instr.target? with
  | none => simp [Placed.reaches, h.linked placed hplaced, hmark]
  | some mark =>
      have htarget : (code.offset? mark).getD 0 ≤ 2147483647 := by
        cases hoffset : code.offset? mark with
        | none => simp
        | some offset =>
            have := h.offset_lt (mem_of_lookup hoffset)
            simp only [Option.getD_some]
            omega
      obtain ⟨before, after, hcode⟩ := List.append_of_mem hplaced
      obtain ⟨hoffset, hsized⟩ := Consecutive.at (hcode ▸ h.consecutive)
      have hreach : code.reach = reach before + (placed.bytes.length + reach after) := by
        rw [hcode, reach_append, reach_cons]
      rw [Placed.length_bytes hsized] at hreach
      simp only [Placed.reaches, Placed.distance, h.linked placed hplaced, hmark, Option.map_some, Option.getD_some,
        Option.isNone_some, Bool.false_or, Bool.and_eq_true, decide_eq_true_eq]
      omega

end Made

end Assembled

/-- All labels are found in the code. -/
theorem CodeGeneration.exists_resolve {options : CodeOptions} {ops : Array Op} {depths : Flow.Depths}
    {script : Script} {code : Assembled CodeLabel} (hmade : code.Made script)
    (hdisciplined : Disciplined (labels options ops depths) script) :
    ∃ assembly, resolve options ops depths code = .ok assembly := by
  have hnodup := hdisciplined.placed.nodup_iff.mpr hdisciplined.distinct
  have hfound : ∀ mark ∈ labels options ops depths, ∃ offset, code.labelOffset mark = .ok offset := by
    intro mark hmark
    obtain ⟨offset, -, hoffset⟩ := hmade.exists_offset hnodup (hdisciplined.placed.mem_iff.mpr hmark)
    exact ⟨offset, Assembled.labelOffset_eq_ok.mpr hoffset⟩
  obtain ⟨opOffsets, hops⟩ := exists_mapM fun mark hmark => hfound mark (List.mem_append_left _ hmark)
  have hnamed : ∃ offsets, ((namedLabels options ops depths).map fun mark => (mark.name, mark)).mapM
      (fun entry => code.labelOffset entry.2) = .ok offsets := by
    refine exists_mapM fun entry hentry => ?_
    obtain ⟨mark, hmark, rfl⟩ := List.mem_map.mp hentry
    exact hfound mark (List.mem_append_right _ hmark)
  obtain ⟨offsets, hnamed⟩ := hnamed
  simp only [resolve, Assembled.resolve, hops, hnamed, bind, Except.bind]
  exact ⟨_, rfl⟩

theorem CodeGeneration.made_of_assemble {labels : List CodeLabel} {script : Script} {code : Assembled CodeLabel}
    (hsolid : Script.Solid script) (h : assemble labels script = .ok code) : code.Made script := by
  obtain ⟨final, hrun, hdone, rfl⟩ := assemble_eq_ok h
  exact Assembled.made_of_run hsolid hrun hdone

namespace CodeGeneration

/-- How the machine code of a program came about. -/
structure Generated (options : CodeOptions) (program : Program) (depths : Flow.Depths) (script : Script)
    (assembly : Assembly CodeLabel) (machine : MachineCode) : Prop where
  depths_eq : program.depths = .ok depths
  script_eq : CodeGeneration.script options program depths = .ok script
  disciplined : Disciplined (labels options program.ops depths) script
  made : assembly.code.Made script
  resolved : Resolved options program.ops depths assembly
  machine_eq : machine = MachineCode.describe program options (needs program.ops) assembly

theorem exists_generated {program : Program} {options : CodeOptions} {machine : MachineCode}
    (h : program.compile options = .ok machine) :
    ∃ depths script assembly, Generated options program depths script assembly machine := by
  obtain ⟨depths, script, assembly, hdepths, hscript, hassemble, hresolved, hmachine⟩ := compile_eq_ok h
  exact ⟨depths, script, assembly, hdepths, hscript, disciplined_script hdepths hscript,
    made_of_assemble (solid_script hscript) hassemble, hresolved, hmachine⟩

namespace Generated
variable {options : CodeOptions} {program : Program} {depths : Flow.Depths} {script : Script}
  {assembly : Assembly CodeLabel} {machine : MachineCode} {mark : CodeLabel} {offset : Nat}

theorem code_eq (h : Generated options program depths script assembly machine) : machine.code = assembly.code := by
  rw [h.machine_eq]
  rfl

theorem size_depths (h : Generated options program depths script assembly machine) :
    depths.size = program.ops.size :=
  (Program.depths_spec h.depths_eq).2.2

theorem distinct (h : Generated options program depths script assembly machine) : (placements script).Nodup :=
  h.disciplined.placed.nodup_iff.mpr h.disciplined.distinct

theorem mem_marks (h : Generated options program depths script assembly machine) :
    (mark, offset) ∈ assembly.code.marks ↔ assembly.code.offset? mark = some offset :=
  ⟨h.made.offset?_eq_some h.distinct, mem_of_lookup⟩

theorem mem_labels_of_mark (h : Generated options program depths script assembly machine)
    (hmark : (mark, offset) ∈ assembly.code.marks) : mark ∈ labels options program.ops depths := by
  rw [← h.disciplined.placed.mem_iff, ← h.made.labels]
  exact List.mem_map_of_mem hmark

/-- No two labels have the same offset. -/
theorem offset_injective (h : Generated options program depths script assembly machine) {other : CodeLabel}
    (hmark : assembly.code.offset? mark = some offset) (hother : assembly.code.offset? other = some offset) :
    mark = other := by
  have hdistinct : (assembly.code.marks.map Prod.snd).Nodup :=
    List.pairwise_map.mpr (h.made.increasing.imp Nat.ne_of_lt)
  have heq := List.inj_on_of_nodup_map hdistinct (h.mem_marks.mpr hmark) (h.mem_marks.mpr hother) rfl
  exact congrArg Prod.fst heq

end Generated

end CodeGeneration

end X64

open X64

/-- A program that passes its check and has a frame that is not too large has machine code with every option, as
long as the code has no more than two gigabytes. Its script places each label that was created for it once, with an
instruction behind it, and refers to no other label; the machine code is the assembled script with the labels that
are looked up in it. Beyond that size the only thing that can fail is a branch that does not reach its target. -/
theorem Program.compile_of_verify (program : Program) (options : CodeOptions) {size : Nat}
    (hverify : program.verify = .ok ()) (hframe : Frame.size program.slots.size = .ok size) :
    ∃ depths script final assembly, program.depths = .ok depths ∧
      CodeGeneration.script options program depths = .ok script ∧
      Script.Disciplined (CodeGeneration.labels options program.ops depths) script ∧
      script.foldlM Assembler.perform {} = .ok final ∧ final.waiting = none ∧
      CodeGeneration.resolve options program.ops depths final.code = .ok assembly ∧
      (final.code.bytes.size ≤ 2147483648 → program.compile options =
        .ok (MachineCode.describe program options (CodeGeneration.needs program.ops) assembly)) ∧
      ∀ error, program.compile options = .error error → error = .encoding (.assembly .targetTooFar) := by
  obtain ⟨-, depths, hdepths⟩ := Program.verify_spec hverify
  obtain ⟨script, hscript⟩ := CodeGeneration.exists_script hverify hframe
  have hdisciplined := CodeGeneration.disciplined_script hdepths hscript
  obtain ⟨final, hrun, hdone, hassemble⟩ := CodeGeneration.assemble_of_disciplined hdisciplined
  have hmade : final.code.Made script := Assembled.made_of_run (CodeGeneration.solid_script hscript) hrun hdone
  obtain ⟨assembly, hresolve⟩ := CodeGeneration.exists_resolve hmade hdisciplined
  refine ⟨depths, script, final, assembly, hdepths, hscript, hdisciplined, hrun, hdone, hresolve, ?_, ?_⟩
  · intro hsize
    rw [Process.size_bytes] at hsize
    rw [if_pos (hmade.reaches hsize)] at hassemble
    simp only [Program.compile, hdepths, hscript, hassemble, hresolve, bind, Except.bind]
  · intro error herror
    rw [Program.compile, hdepths] at herror
    simp only [hscript, hassemble, bind, Except.bind] at herror
    cases hreaches : final.code.all Placed.reaches with
    | true =>
        simp only [hreaches, if_true, hresolve] at herror
        cases herror
    | false =>
        simp only [hreaches, Bool.false_eq_true, if_false] at herror
        cases herror
        rfl

/-- Behind its exit this program prints a truth value, divides once more and jumps out of the program. The
routine is there all the same, but neither a label for this division nor one for the target of the jump. -/
theorem Program.compile_of_verify_unreached :
    let program : Program :=
      { ops := #[.push 6, .push 3, .binary (.arith .div), .print .int, .push 0, .exit, .print .bool,
          .binary (.arith .rem), .jump 99]
        lines := #[1, 1, 1, 1, 2, 2, 3, 3, 4] }
    let options : CodeOptions := { stackBased := false, entryPoint := true }
    program.verify = .ok () ∧ Frame.size program.slots.size = .ok 0 ∧
      ∃ depths script final assembly, program.depths = .ok depths ∧
        CodeGeneration.script options program depths = .ok script ∧
        Script.Disciplined (CodeGeneration.labels options program.ops depths) script ∧
        script.foldlM Assembler.perform {} = .ok final ∧ final.code.bytes.size ≤ 2147483648 ∧
        program.compile options =
          .ok (MachineCode.describe program options (CodeGeneration.needs program.ops) assembly) := by
  intro program options
  have hverify : program.verify = .ok () := by decide +kernel
  have hframe : Frame.size program.slots.size = .ok 0 := by decide
  have hsize : (do
      let depths ← program.depths.toOption
      let script ← (CodeGeneration.script options program depths).toOption
      let final ← (script.foldlM Assembler.perform {}).toOption
      return final.code.bytes.size) = some 308 := by decide +kernel
  obtain ⟨depths, script, final, assembly, hdepths, hscript, hdisciplined, hrun, -, -, hcompile, -⟩ :=
    program.compile_of_verify options hverify hframe
  simp only [hdepths, hscript, hrun, Except.toOption, Option.bind_eq_bind, Option.bind_some] at hsize
  have hsize : final.code.bytes.size ≤ 2147483648 := by
    rw [Option.some.inj hsize]
    decide
  exact ⟨hverify, hframe, depths, script, final, assembly, hdepths, hscript, hdisciplined, hrun, hsize,
    hcompile hsize⟩

end GotoLang
