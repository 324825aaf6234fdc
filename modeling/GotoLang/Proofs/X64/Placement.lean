import GotoLang.Proofs.X64.Layout
import GotoLang.Proofs.X64.Stack

/-!
# Code in memory

A script stands between two addresses if its instructions are fetched there one after the other, with
labels replaced by their addresses, and its labels are the addresses they are placed at. The code that
an assembler makes of a script, loaded into memory, is such a piece of memory.
-/
namespace GotoLang.X64

namespace Assembler
variable {label : Type} {assembler final : Assembler label}

/-- The labels of the lines and the one that waits. -/
def marks (assembler : Assembler label) : List label :=
  assembler.lines.toList.filterMap Line.mark ++ assembler.waiting.toList

/-- No label was used twice. -/
structure Distinct (assembler : Assembler label) : Prop where
  nodup : assembler.marks.Nodup
  placed : ∀ mark ∈ assembler.marks, mark ∈ assembler.placed

theorem distinct_empty : Distinct ({} : Assembler label) :=
  ⟨List.nodup_nil, fun _ h => absurd h List.not_mem_nil⟩

theorem marks_emit (assembler : Assembler label) (instr : Instr label) :
    (assembler.emit instr).marks = assembler.marks := by
  rw [marks, marks, emit, Array.toList_push, List.filterMap_append]
  cases assembler.waiting <;> simp

variable [DecidableEq label]

theorem place_eq_ok {mark : label} (h : assembler.place mark = .ok final) :
    mark ∉ assembler.placed ∧ assembler.waiting = none ∧
      final = { assembler with placed := mark :: assembler.placed, waiting := some mark } := by
  rw [place] at h
  split at h
  · cases h
  · next hnew =>
      split at h
      · cases h
      · next hwait =>
          cases h
          exact ⟨by simpa using hnew, by simpa using hwait, rfl⟩

theorem marks_place {mark : label} (h : assembler.place mark = .ok final) :
    final.marks = assembler.marks ++ [mark] := by
  obtain ⟨-, hwait, rfl⟩ := place_eq_ok h
  simp [marks, hwait]

theorem Distinct.perform {directive : Directive label} (h : assembler.Distinct)
    (hdo : assembler.perform directive = .ok final) : final.Distinct := by
  cases directive with
  | emit instr =>
      cases hdo
      refine ⟨?_, ?_⟩
      · rw [marks_emit]
        exact h.nodup
      · rw [marks_emit]
        exact h.placed
  | place mark =>
      have hmarks := marks_place hdo
      obtain ⟨hnew, -, rfl⟩ := place_eq_ok hdo
      have hmark : mark ∉ assembler.marks := fun hm => hnew (h.placed mark hm)
      refine ⟨?_, ?_⟩
      · rw [hmarks]
        refine List.nodup_append.mpr ⟨h.nodup, by simp, ?_⟩
        intro other hother other' hother' heq
        rw [List.mem_singleton.mp hother'] at heq
        exact hmark (heq ▸ hother)
      · rw [hmarks]
        intro other hother
        rcases List.mem_append.mp hother with hold | hold
        · exact List.mem_cons_of_mem _ (h.placed other hold)
        · rw [List.mem_singleton.mp hold]
          exact List.mem_cons_self

theorem run_cons {directive : Directive label} {script : List (Directive label)}
    (hrun : (directive :: script).foldlM perform assembler = .ok final) :
    ∃ next, assembler.perform directive = .ok next ∧ script.foldlM perform next = .ok final := by
  rw [List.foldlM_cons] at hrun
  cases hdo : assembler.perform directive with
  | error fault =>
      rw [hdo] at hrun
      cases hrun
  | ok next =>
      rw [hdo] at hrun
      exact ⟨next, rfl, hrun⟩

theorem Distinct.run {script : List (Directive label)} (h : assembler.Distinct)
    (hrun : script.foldlM Assembler.perform assembler = .ok final) : final.Distinct := by
  induction script generalizing assembler with
  | nil =>
      cases hrun
      exact h
  | cons directive script ih =>
      obtain ⟨next, hdo, hrun⟩ := run_cons hrun
      exact ih (h.perform hdo) hrun

/-- Lines are only appended. -/
theorem lines_run {script : List (Directive label)}
    (hrun : script.foldlM perform assembler = .ok final) :
    ∃ more, final.lines.toList = assembler.lines.toList ++ more := by
  induction script generalizing assembler with
  | nil =>
      cases hrun
      exact ⟨[], (List.append_nil _).symm⟩
  | cons directive script ih =>
      obtain ⟨next, hdo, hrun⟩ := run_cons hrun
      obtain ⟨more, hmore⟩ := ih hrun
      cases directive with
      | emit instr =>
          cases hdo
          rw [emit, Array.toList_push, List.append_assoc] at hmore
          exact ⟨_, hmore⟩
      | place mark =>
          obtain ⟨-, -, rfl⟩ := place_eq_ok hdo
          exact ⟨more, hmore⟩

/-- The next line has the label that waits. -/
theorem lines_run_emit {script : List (Directive label)} {instr : Instr label}
    (hrun : script.foldlM perform (assembler.emit instr) = .ok final) : ∃ more,
      final.lines.toList = assembler.lines.toList ++ ⟨assembler.waiting, instr⟩ :: more := by
  obtain ⟨more, hmore⟩ := lines_run hrun
  rw [emit, Array.toList_push, List.append_assoc] at hmore
  exact ⟨more, hmore⟩

theorem lines_run_waiting {script : List (Directive label)} {mark : label}
    (hrun : script.foldlM perform assembler = .ok final) (hwait : assembler.waiting = some mark)
    (hdone : final.waiting = none) : ∃ instr more,
      final.lines.toList = assembler.lines.toList ++ ⟨some mark, instr⟩ :: more := by
  cases script with
  | nil =>
      cases hrun
      rw [hwait] at hdone
      cases hdone
  | cons directive script =>
      obtain ⟨next, hdo, hrun⟩ := run_cons hrun
      cases directive with
      | emit instr =>
          cases hdo
          obtain ⟨more, hmore⟩ := lines_run_emit hrun
          rw [hwait] at hmore
          exact ⟨instr, more, hmore⟩
      | place other =>
          obtain ⟨-, hnone, -⟩ := place_eq_ok hdo
          rw [hwait] at hnone
          cases hnone

end Assembler

theorem Placed.length_bytes {label : Type} {placed : Placed label}
    (h : placed.instr.Sized placed.size) : placed.bytes.length = placed.size :=
  h _

namespace Assembled
variable {label : Type} {before after : Assembled label} {placed : Placed label}

/-- How far the bytes of some instructions reach. -/
def reach (code : Assembled label) : Nat :=
  (code.flatMap Placed.bytes).length

theorem reach_append (code code' : Assembled label) :
    reach (code ++ code') = code.reach + code'.reach := by
  rw [reach, List.flatMap_append, List.length_append]
  rfl

theorem reach_cons (placed : Placed label) (code : Assembled label) :
    reach (placed :: code) = placed.bytes.length + code.reach := by
  rw [reach, List.flatMap_cons, List.length_append]
  rfl

theorem Consecutive.at {offset : Nat} (h : Consecutive offset (before ++ placed :: after)) :
    placed.offset = offset + before.reach ∧ placed.instr.Sized placed.size := by
  induction before generalizing offset with
  | nil =>
      cases h with
      | cons hsize _ => exact ⟨rfl, hsize⟩
  | cons first before ih =>
      cases h with
      | cons hsize hrest =>
          obtain ⟨hoffset, hplaced⟩ := ih hrest
          rw [reach_cons, Placed.length_bytes hsize]
          exact ⟨by omega, hplaced⟩

/-- No instruction is empty. -/
def Solid (code : Assembled label) : Prop :=
  ∀ placed ∈ code, placed.instr ≠ .data []

end Assembled

/-- The code is loaded at its address, and neither it nor the stack reaches beyond the end of memory or
into the other. -/
structure Process.Loaded (process : Process) : Prop where
  stack : process.high < 18446744073709551616
  room : process.base + process.code.bytes.size < 18446744073709551616
  image : process.image.read process.base process.code.bytes.size = process.code.bytes.toList
  apart : process.high ≤ process.base ∨ process.base + process.code.bytes.size ≤ process.low

/-- Code in memory from an address on, and a stack between two bounds. -/
def Process.load (code : Assembled CodeLabel) (base low high : Nat) : Process where
  code
  base
  image addr := code.bytes.getD (addr - base) 0
  low
  high

theorem Process.loaded_load {code : Assembled CodeLabel} {base low high : Nat}
    (hbase : base + code.bytes.size ≤ low) (hlow : low ≤ high) (hhigh : high < 18446744073709551616) :
    (load code base low high).Loaded := by
  refine ⟨hhigh, ?_, ?_, .inr hbase⟩
  · show base + code.bytes.size < 18446744073709551616
    omega
  · show ((List.range code.bytes.size).map fun i => code.bytes.getD (base + i - base) 0) =
      code.bytes.toList
    apply List.ext_getElem
    · simp
    · intro i hi _
      have hlt : i < code.bytes.size := by simpa using hi
      simp [Array.getD_eq_getD_getElem?, Array.getElem?_eq_getElem hlt]

namespace Process
variable {process : Process}

/-- The address of a label. -/
def label (process : Process) (mark : CodeLabel) : BitVec 64 :=
  process.address ((process.code.offset? mark).getD 0)

/-- An instruction and, if it is data, its bytes are at an address. -/
structure Has (process : Process) (addr : BitVec 64) (instr : Instr (BitVec 64))
    (next : BitVec 64) : Prop where
  fetch : process.fetch? addr = some (instr, next)
  data : ∀ bytes, instr = .data bytes → ∀ cpu : Cpu,
    cpu.buffer? process addr.toNat bytes.length = some bytes

section
variable {before after : Assembled CodeLabel} {placed : Placed CodeLabel}

theorem size_bytes (code : Assembled CodeLabel) : code.bytes.size = code.reach := by
  rw [Assembled.bytes, List.size_toArray]
  rfl

theorem toNat_address (h : process.Loaded) {offset : Nat} (hoffset : offset ≤ process.code.reach) :
    (process.address offset).toNat = process.base + offset := by
  have hroom := h.room
  rw [size_bytes] at hroom
  rw [address, BitVec.toNat_ofNat, Nat.mod_eq_of_lt (by omega)]

/-- No two instructions begin at the same address, so each is found at its own. -/
theorem find_placed (h : process.Loaded) (hcode : process.code = before ++ placed :: after)
    (hconsecutive : process.code.Consecutive 0) (hsolid : process.code.Solid) :
    (process.code.find? fun other => process.address other.offset == process.address placed.offset) =
      some placed := by
  have hat := (hcode ▸ hconsecutive).at
  have hreach : process.code.reach = before.reach + (placed.bytes.length + after.reach) := by
    rw [hcode, Assembled.reach_append, Assembled.reach_cons]
  rw [hcode, List.find?_append, List.find?_eq_none.mpr, Option.none_or, List.find?_cons_of_pos (by simp)]
  intro other hother heq
  obtain ⟨first, second, rfl⟩ := List.append_of_mem hother
  have hcode' : process.code = first ++ other :: (second ++ placed :: after) := by
    rw [hcode, List.append_assoc, List.cons_append]
  have hother' := (hcode' ▸ hconsecutive).at
  have hpos := hother'.2.pos (hsolid other (by rw [hcode']; simp))
  have hlength := Placed.length_bytes hother'.2
  have hbefore : Assembled.reach (first ++ other :: second) =
      Assembled.reach first + (other.size + Assembled.reach second) := by
    rw [Assembled.reach_append, Assembled.reach_cons, hlength]
  have hsame := congrArg BitVec.toNat (beq_iff_eq.mp heq)
  rw [toNat_address h (by omega), toNat_address h (by omega)] at hsame
  omega

/-- The bytes of an instruction are in the image at its address. -/
theorem read_placed (h : process.Loaded) (hcode : process.code = before ++ placed :: after) :
    process.image.read (process.base + before.reach) placed.bytes.length = placed.bytes := by
  have himage := h.image
  have hbytes : process.code.bytes.toList =
      before.flatMap Placed.bytes ++ (placed.bytes ++ after.flatMap Placed.bytes) := by
    rw [hcode, Assembled.bytes, List.flatMap_append, List.flatMap_cons]
  have hsize : process.code.bytes.size = before.reach + (placed.bytes.length + after.reach) := by
    rw [size_bytes, hcode, Assembled.reach_append, Assembled.reach_cons]
  rw [hbytes, hsize, Memory.read_add, Memory.read_add] at himage
  have hrest := (List.append_inj himage (Memory.length_read _ _ _)).2
  exact (List.append_inj hrest (Memory.length_read _ _ _)).1

theorem has_placed (h : process.Loaded) (hcode : process.code = before ++ placed :: after)
    (hconsecutive : process.code.Consecutive 0) (hlinked : process.code.Linked)
    (hsolid : process.code.Solid) :
    process.Has (process.address before.reach) (placed.instr.map process.label)
      (process.address (before.reach + placed.bytes.length)) := by
  obtain ⟨hoffset, hsized⟩ := (hcode ▸ hconsecutive).at
  rw [Nat.zero_add] at hoffset
  have hmem : placed ∈ process.code := by
    rw [hcode]
    simp
  refine ⟨?_, ?_⟩
  · have hinstr : placed.instr.map (fun _ => process.address (placed.target.getD 0)) =
        placed.instr.map process.label := by
      apply Instr.map_congr
      intro target htarget
      rw [hlinked placed hmem, htarget]
      rfl
    rw [fetch?, ← hoffset, find_placed h hcode hconsecutive hsolid, Option.map_some, hinstr,
      Placed.length_bytes hsized]
  · intro bytes hdata cpu
    have hplaced : placed.bytes = bytes := by
      rw [Placed.bytes, ← Instr.bytes_map process.label, hdata]
      rfl
    have hpos := hsized.pos (hsolid placed hmem)
    rw [← Placed.length_bytes hsized, hplaced] at hpos
    have hread := read_placed h hcode
    rw [hplaced] at hread
    have hsize : process.code.bytes.size = before.reach + (bytes.length + after.reach) := by
      rw [size_bytes, hcode, Assembled.reach_append, Assembled.reach_cons, hplaced]
    have hreach : before.reach ≤ process.code.reach := by
      rw [← size_bytes process.code]
      omega
    have haddress := toNat_address h hreach
    have hapart := h.apart
    have hstack : process.onStack (process.base + before.reach) bytes.length = false := by
      rw [onStack, Bool.and_eq_false_iff, decide_eq_false_iff_not, decide_eq_false_iff_not]
      omega
    have himage : process.inImage (process.base + before.reach) bytes.length = true := by
      rw [inImage, Bool.and_eq_true, decide_eq_true_eq, decide_eq_true_eq]
      omega
    rw [Cpu.buffer?, haddress, hstack, himage, hread]
    rfl

/-- A label is the address of the one line that has it. -/
theorem label_placed (hcode : process.code = before ++ placed :: after)
    (hconsecutive : process.code.Consecutive 0) {mark : CodeLabel} (hmark : placed.mark = some mark)
    (hnodup : ((process.code.map Placed.toLine).filterMap Line.mark).Nodup) :
    process.label mark = process.address before.reach := by
  obtain ⟨hoffset, -⟩ := (hcode ▸ hconsecutive).at
  rw [Nat.zero_add] at hoffset
  have hlookup : process.code.offset? mark = some placed.offset := by
    rw [Assembled.offset?, List.lookup_eq_some_iff]
    refine ⟨Assembled.marks before, Assembled.marks after, ?_, ?_⟩
    · rw [hcode, Assembled.marks, List.filterMap_append, List.filterMap_cons, hmark]
      rfl
    · intro entry hentry
      obtain ⟨other, hother, hentry⟩ := List.mem_filterMap.mp hentry
      obtain ⟨mark', hmark', rfl⟩ := Option.map_eq_some_iff.mp hentry
      rw [hcode, List.map_append, List.map_cons, List.filterMap_append, List.filterMap_cons,
        List.nodup_append] at hnodup
      have hne := hnodup.2.2 mark' (List.mem_filterMap.mpr ⟨other.toLine,
        List.mem_map_of_mem hother, hmark'⟩) mark (by rw [hmark]; exact List.mem_cons_self)
      rw [bne_iff_ne]
      exact hne.symm
  rw [label, hlookup, Option.getD_some, hoffset]

end

/-- A script is between two addresses. -/
def Stands (process : Process) : Script → BitVec 64 → BitVec 64 → Prop
  | [], first, last => first = last
  | .place mark :: rest, first, last => process.label mark = first ∧ process.Stands rest first last
  | .emit instr :: rest, first, last =>
    ∃ next, process.Has first (instr.map process.label) next ∧ process.Stands rest next last

theorem Stands.append {script script' : Script} {first last : BitVec 64}
    (h : process.Stands (script ++ script') first last) :
    ∃ middle, process.Stands script first middle ∧ process.Stands script' middle last := by
  induction script generalizing first with
  | nil => exact ⟨first, rfl, h⟩
  | cons directive script ih =>
      cases directive with
      | place mark =>
          obtain ⟨hmark, hrest⟩ := h
          obtain ⟨middle, hfirst, hsecond⟩ := ih hrest
          exact ⟨middle, ⟨hmark, hfirst⟩, hsecond⟩
      | emit instr =>
          obtain ⟨next, hhas, hrest⟩ := h
          obtain ⟨middle, hfirst, hsecond⟩ := ih hrest
          exact ⟨middle, ⟨next, hhas, hfirst⟩, hsecond⟩

/-- Where a line of the code begins. -/
def spot (process : Process) (index : Nat) : BitVec 64 :=
  process.address (Assembled.reach (process.code.take index))

theorem stands_run (h : process.Loaded) {script : Script} {assembler final : Assembler CodeLabel}
    (hrun : script.foldlM Assembler.perform assembler = .ok final) (hdone : final.waiting = none)
    (hdistinct : final.Distinct) (hcode : process.code = Assembler.assemble final.lines.toList)
    (hsolid : process.code.Solid) :
    process.Stands script (process.spot assembler.lines.size) (process.spot final.lines.size) := by
  obtain ⟨hlines, hconsecutive, hlinked⟩ := Assembler.assemble_spec final.lines.toList
  rw [← hcode] at hlines hconsecutive hlinked
  -- The code that the lines so far became, the next instruction, and the rest.
  have hsplit : ∀ (lines : Array (Line CodeLabel)) line more,
      final.lines.toList = lines.toList ++ line :: more → ∃ (before : Assembled CodeLabel) (placed : Placed CodeLabel)
        (after : Assembled CodeLabel),
        process.code = before ++ placed :: after ∧ placed.toLine = line ∧
        process.spot lines.size = process.address before.reach ∧
        process.spot (lines.size + 1) = process.address (before.reach + placed.bytes.length) := by
    intro lines line more heq
    rw [← hlines] at heq
    obtain ⟨before, rest, hbefore, hlength, hrest⟩ := List.map_eq_append_iff.mp heq
    obtain ⟨placed, after, rfl, hplaced, -⟩ := List.map_eq_cons_iff.mp hrest
    have hsize : lines.size = before.length := by
      rw [← Array.length_toList, ← hlength, List.length_map]
    refine ⟨before, placed, after, hbefore, hplaced, ?_, ?_⟩
    · rw [spot, hbefore, hsize, List.take_left]
    · have htake : (before ++ placed :: after).take (before.length + 1) = before ++ [placed] := by
        rw [List.take_length_add_append]
        rfl
      rw [spot, hbefore, hsize, htake, Assembled.reach_append, Assembled.reach_cons]
      rfl
  induction script generalizing assembler with
  | nil =>
      cases hrun
      rfl
  | cons directive script ih =>
      obtain ⟨next, hdo, hrun⟩ := Assembler.run_cons hrun
      have hrest := ih hrun
      cases directive with
      | emit instr =>
          cases hdo
          obtain ⟨more, hmore⟩ := Assembler.lines_run_emit hrun
          obtain ⟨before, placed, after, hcode', hplaced, hfirst, hlast⟩ := hsplit _ _ _ hmore
          have hhas := has_placed h hcode' hconsecutive hlinked hsolid
          rw [← hfirst, ← hlast, hplaced] at hhas
          rw [Assembler.emit, Array.size_push] at hrest
          exact ⟨_, hhas, hrest⟩
      | place mark =>
          obtain ⟨-, -, rfl⟩ := Assembler.place_eq_ok hdo
          obtain ⟨instr, more, hmore⟩ := Assembler.lines_run_waiting hrun rfl hdone
          obtain ⟨before, placed, after, hcode', hplaced, hfirst, -⟩ := hsplit _ _ _ hmore
          have hmark : placed.mark = some mark := by rw [hplaced]
          have hnodup : ((process.code.map Placed.toLine).filterMap Line.mark).Nodup := by
            have h := hdistinct.nodup
            rw [Assembler.marks, hdone, Option.toList_none, List.append_nil] at h
            rwa [hlines]
          exact ⟨(label_placed hcode' hconsecutive hmark hnodup).trans hfirst.symm, hrest⟩

end Process

end GotoLang.X64
