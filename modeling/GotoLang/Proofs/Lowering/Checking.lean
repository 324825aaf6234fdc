import GotoLang.Proofs.Building
import GotoLang.Proofs.Checking

/-!
# Built programs pass the check

The types of a lowered program give it its stack heights, so the check accepts it. No transfer waits any
more, not even one that is never reached: each goes where a label of the text stands, and behind every
label there is an operation, because the epilogue follows the last one.
-/
namespace GotoLang
open Source

namespace Source

theorem map_name_marks (addr : Nat) (stmts : List Stmt) :
    (marks addr stmts).map Mark.name = stmts.filterMap definition? := by
  induction stmts generalizing addr with
  | nil => rfl
  | cons stmt rest ih =>
      rw [marks, List.map_append, ih]
      cases h : definition? stmt with
      | none => rw [List.filterMap_cons_none h]; rfl
      | some name => rw [List.filterMap_cons_some h]; rfl

theorem mem_marks_label (name : String) (span : Span) (before behind : List Stmt) :
    ⟨name, (size before).toUInt32⟩ ∈ marks 0 (before ++ .label name span :: behind) := by
  rw [marks_append, Nat.zero_add]
  exact List.mem_append_right _ List.mem_cons_self

theorem marks_bounds {addr : Nat} {stmts : List Stmt} {mark : Mark} (hm : mark ∈ marks addr stmts)
    (h : addr + size stmts < 4294967296) :
    addr ≤ mark.addr.toNat ∧ mark.addr.toNat ≤ addr + size stmts := by
  induction stmts generalizing addr with
  | nil => cases hm
  | cons stmt rest ih =>
      rw [size] at h ⊢
      rcases List.mem_append.mp hm with hhere | hrest
      · obtain ⟨name, -, rfl⟩ := Option.map_eq_some_iff.mp (Option.mem_toList.mp hhere)
        have haddr : addr.toUInt32.toNat = addr :=
          UInt32.toNat_ofNat_of_lt' (by rw [UInt32.size]; omega)
        simp only [haddr]
        omega
      · have := ih hrest (by omega)
        omega

/-- Labels that are defined later mark no earlier address. -/
theorem marks_sorted {addr : Nat} {stmts : List Stmt} (h : addr + size stmts < 4294967296) :
    (marks addr stmts).Pairwise fun a b => a.addr ≤ b.addr := by
  induction stmts generalizing addr with
  | nil => exact .nil
  | cons stmt rest ih =>
      rw [size] at h
      have hrest : (marks (addr + stmt.size) rest).Pairwise fun a b => a.addr ≤ b.addr := ih (by omega)
      rw [marks]
      cases hd : definition? stmt with
      | none => exact hrest
      | some name =>
          refine List.pairwise_cons.mpr ⟨?_, hrest⟩
          intro mark hm
          have hlow := (marks_bounds hm (by omega)).1
          have haddr : addr.toUInt32.toNat = addr :=
            UInt32.toNat_ofNat_of_lt' (by rw [UInt32.size]; omega)
          rw [UInt32.le_iff_toNat_le, haddr]
          omega

end Source

theorem Op.Typed.slot {κ : Type} {kinds : Kinds κ} {op : Op} {st st' : List κ} {slot : Slot}
    (h : op.Typed kinds st st') (hs : op.slot? = some slot) : ∃ k, kinds.slot slot = some k := by
  cases h with
  | load hk =>
      cases hs
      exact ⟨_, hk⟩
  | store hk =>
      cases hs
      exact ⟨_, hk⟩
  | _ => cases hs

theorem Op.Chain.typed {κ : Type} {kinds : Kinds κ} {ops : List Op} {st st' : List κ} {op : Op}
    (h : Chain kinds ops st st') (hop : op ∈ ops) : ∃ a b, op.Typed kinds a b := by
  induction h with
  | nil => cases hop
  | cons ht _ ih =>
      rcases List.mem_cons.mp hop with rfl | hop
      · exact ⟨_, _, ht⟩
      · exact ih hop

namespace Lowering.Lowered
variable {layout : Layout} {stmts : List Stmt} {program : Program}

theorem size (h : Lowered layout stmts program) : program.ops.size = Source.size stmts + 2 := by
  rw [← Array.length_toList, h.ops, List.length_append, Source.length_code]
  rfl

theorem knowsSlots (h : Lowered layout stmts program) (hsize : program.ops.size < 4294967296) :
    program.KnowsSlots := by
  intro op hop slot hslot
  rw [← Array.mem_toList_iff, h.ops, ← flatten_blocks] at hop
  obtain ⟨block, hblock, hop⟩ := List.mem_flatten.mp hop
  obtain ⟨a, b, ht⟩ := (h.blocks.chain block hblock).typed hop
  obtain ⟨ty, hty⟩ := ht.slot hslot
  obtain ⟨found, hfound, -⟩ := Option.map_eq_some_iff.mp hty
  have hlt := (Array.getElem?_eq_some_iff.mp hfound).1
  have hcount := h.count
  have hslots : program.slots.size.toUInt32.toNat = program.slots.size :=
    UInt32.toNat_ofNat_of_lt' (by rw [UInt32.size]; omega)
  rw [UInt32.lt_iff_toNat_lt, hslots]
  exact hlt

/-- A transfer goes where a label stands. -/
theorem target_marked (h : Lowered layout stmts program) {op : Op} (hop : op ∈ program.ops)
    {target : Addr} (ht : op.target? = some target) : ∃ mark ∈ program.marks, mark.addr = target := by
  rw [← Array.mem_toList_iff, h.ops] at hop
  rcases List.mem_append.mp hop with hop | hop
  · obtain ⟨stmt, hstmt, hop⟩ := List.mem_flatMap.mp hop
    obtain ⟨pre, post, heq⟩ := List.append_of_mem hop
    obtain ⟨-, name, hname, rfl⟩ := Stmt.transfer_code heq ht
    obtain ⟨before, behind, span, hsplit, -, haddr⟩ := h.label stmt hstmt name hname
    refine ⟨⟨name, (Source.size before).toUInt32⟩, ?_, ?_⟩
    · rw [← Array.mem_toList_iff, h.marks, hsplit]
      exact mem_marks_label name span before behind
    · rw [← haddr]
      exact UInt32.ofNat_toNat
  · have hnone : op = .push 0 ∨ op = .exit := by simpa using hop
    rcases hnone with rfl | rfl <;> cases ht

theorem mark_lt (h : Lowered layout stmts program) (hsize : program.ops.size < 4294967296) {mark : Mark}
    (hm : mark ∈ program.marks) : mark.addr.toNat < program.ops.size := by
  rw [← Array.mem_toList_iff, h.marks] at hm
  have hcount := h.size
  have := (marks_bounds hm (by omega)).2
  omega

theorem verifies (h : Lowered layout stmts program) (hsize : program.ops.size < 4294967296) :
    program.verify = .ok () :=
  Program.verify_of_wellTyped hsize h.lines (h.knowsSlots hsize) h.wellTyped

end Lowering.Lowered

/-- What is built from a text passes the check. Its transfers go to operations of the program, whether
they are reached or not, and its labels are those that the text defines, once each and in order. -/
theorem Compilation.build_verifies {config : Config} {host : Host} {text : String}
    {c c' : Compilation} {program : Program} (hstart : start config host = .ok c)
    (hbuild : build text c = .ok program c') (htext : text.utf8ByteSize < 2147483648) :
    program.verify = .ok () ∧
    (∀ op ∈ program.ops, ∀ target, op.target? = some target →
      target ≠ placeholder ∧ target.toNat < program.ops.size) ∧
    (∀ mark ∈ program.marks, mark.addr.toNat < program.ops.size) ∧
    (∃ ast, (Reading.ofText text).ast = .ok ast ∧
      program.marks.toList.map Mark.name = ast.stmts.filterMap definition?) ∧
    (program.marks.toList.map Mark.name).Nodup ∧
    program.marks.toList.Pairwise fun a b => a.addr ≤ b.addr := by
  obtain ⟨ast, layout, hast, h, hbound⟩ := lowered_of_build hstart hbuild htext
  refine ⟨h.verifies hbound, ?_, fun mark hm => h.mark_lt hbound hm, ⟨ast, hast, ?_⟩, ?_, ?_⟩
  · intro op hop target ht
    obtain ⟨mark, hm, rfl⟩ := h.target_marked hop ht
    have hlt := h.mark_lt hbound hm
    refine ⟨?_, hlt⟩
    intro hp
    rw [hp] at hlt
    have hword : placeholder.toNat = 4294967295 := rfl
    omega
  · rw [h.marks, map_name_marks]
  · rw [h.marks]
    exact h.distinct
  · rw [h.marks]
    have hsize := h.size
    exact marks_sorted (by omega)

/-- A text that goes forward to a label at its end and back to one in its midst. -/
theorem Compilation.build_verifies_countdown :
    ∃ c c', start { input := "countdown.gt" } .bare = .ok c ∧
      build Program.countdownText c = .ok Program.countdown c' ∧
      Program.countdownText.utf8ByteSize < 2147483648 ∧
      Program.countdown.verify = .ok () ∧
      (∀ op ∈ Program.countdown.ops, ∀ target, op.target? = some target →
        target ≠ placeholder ∧ target.toNat < Program.countdown.ops.size) ∧
      (∀ mark ∈ Program.countdown.marks, mark.addr.toNat < Program.countdown.ops.size) ∧
      Program.countdown.marks.toList.Pairwise fun a b => a.addr ≤ b.addr := by
  obtain ⟨c, c', hstart, hbuild⟩ := countdown_builds
  have htext : Program.countdownText.utf8ByteSize < 2147483648 := by decide +kernel
  obtain ⟨hv, htargets, hmarks, -, -, hsorted⟩ := build_verifies hstart hbuild htext
  exact ⟨c, c', hstart, hbuild, htext, hv, htargets, hmarks, hsorted⟩

end GotoLang
