import Mathlib.Data.List.Forall2
import GotoLang.X64.CodeGeneration

/-!
# Laid out code

However the rounds over the branches go, in the end every instruction has a size that one of its forms
has, so the bytes of the code are where the offsets say. The instructions stand one behind the other,
and the target of a branch is the offset of the line that has the label.
-/
namespace GotoLang.X64

namespace Instr
variable {label other : Type}

/-- A size that a form of the instruction has. -/
def Sized (instr : Instr label) (size : Nat) : Prop :=
  ∀ distance, (instr.bytes (size == 2) distance).length = size

theorem bytes_map (f : label → other) (instr : Instr label) (short : Bool) (distance : Int) :
    (instr.map f).bytes short distance = instr.bytes short distance := by
  cases instr <;> rfl

theorem target?_map (f : label → other) (instr : Instr label) :
    (instr.map f).target? = instr.target?.map f := by
  cases instr <;> rfl

theorem map_congr {f g : label → other} {instr : Instr label}
    (h : ∀ target, instr.target? = some target → f target = g target) :
    instr.map f = instr.map g := by
  cases instr <;> simp only [map]
  case leaLabel dst target => rw [h target rfl]
  case jump target => rw [h target rfl]
  case jumpIf test target => rw [h target rfl]
  case call target => rw [h target rfl]

theorem sized_of_map {f : label → other} {instr : Instr label} {size : Nat}
    (h : (instr.map f).Sized size) : instr.Sized size := by
  intro distance
  rw [← bytes_map f]
  exact h distance

/-- An instruction without a target has one form. -/
theorem sized_size {instr : Instr label} (h : instr.target? = none) :
    instr.Sized (instr.size false) := by
  have hbytes : ∀ short distance, instr.bytes short distance = instr.bytes false 0 := by
    intro short distance
    cases instr
    case leaLabel => cases h
    case jump => cases h
    case jumpIf => cases h
    case call => cases h
    all_goals rfl
  intro distance
  rw [hbytes, size]

theorem sized_jump {target : label} {size : Nat} (h : size = 2 ∨ size = 5) :
    (jump target).Sized size := by
  intro distance
  rcases h with rfl | rfl <;> rfl

theorem sized_jumpIf {test : Test} {target : label} {size : Nat} (h : size = 2 ∨ size = 6) :
    (jumpIf test target).Sized size := by
  intro distance
  rcases h with rfl | rfl <;> rfl

/-- Only data can be empty. -/
theorem Sized.pos {instr : Instr label} {size : Nat} (h : instr.Sized size)
    (hdata : instr ≠ .data []) : 0 < size := by
  have hlen := h 0
  cases instr
  case data bytes =>
    cases bytes with
    | nil => exact absurd rfl hdata
    | cons byte bytes =>
        rw [← hlen]
        exact Nat.succ_pos _
  all_goals
    rw [← hlen, List.length_pos_iff]
    simp only [bytes]
    try split
    all_goals exact List.cons_ne_nil _ _

end Instr

namespace Layout

theorem sized_shrink (pieces : Array Piece) (position gained : Nat) (instr : Instr Nat) :
    instr.Sized (shrink pieces position gained instr).1 := by
  have hbranch : ∀ near distance, (branchSize near distance).1 = 2 ∨
      (branchSize near distance).1 = near := by
    intro near distance
    rw [branchSize]
    split
    · exact .inl rfl
    · exact .inr rfl
  cases instr
  case jump target => exact Instr.sized_jump (hbranch 5 _)
  case jumpIf test target => exact Instr.sized_jumpIf (hbranch 6 _)
  case call target => exact fun _ => rfl
  case leaLabel dst target => exact fun _ => rfl
  all_goals exact Instr.sized_size rfl

/-- As many pieces as instructions, and the sizes of the settled ones are right, as are those of the
first few. -/
structure Measured (code : List (Instr Nat)) (done : Nat) (pieces : Array Piece) : Prop where
  length : pieces.size = code.length
  sized : ∀ {i : Nat} {instr : Instr Nat} {piece : Piece}, code[i]? = some instr →
    pieces[i]? = some piece → i < done ∨ piece.settled = true → instr.Sized piece.size

variable {code : List (Instr Nat)} {done : Nat}

theorem Measured.fewer {pieces : Array Piece} (h : Measured code done pieces) :
    Measured code 0 pieces := by
  refine ⟨h.length, fun hi hp hs => h.sized hi hp (.inr ?_)⟩
  exact hs.resolve_left (Nat.not_lt_zero _)

/-- A visit measures one more piece and leaves the others alone. -/
theorem Measured.visit {pass : Pass} {instr : Instr Nat} (h : Measured code done pass.pieces)
    (hinstr : code[done]? = some instr) :
    Measured code (done + 1) (visit pass done instr).pieces := by
  obtain ⟨pieces, position, gained⟩ := pass
  have hlt : done < pieces.size := by
    rw [h.length]
    exact (List.getElem?_eq_some_iff.mp hinstr).1
  have hpiece : pieces[done]? = some pieces[done] := Array.getElem?_eq_getElem hlt
  have hold := h.sized hinstr hpiece
  have hset : ∃ new, instr.Sized new.size ∧
      (Layout.visit ⟨pieces, position, gained⟩ done instr).pieces = pieces.setIfInBounds done new := by
    simp only [Layout.visit, hpiece]
    refine ⟨_, ?_, Array.setIfInBounds_setIfInBounds ..⟩
    split
    · next hsettled => exact hold (.inr hsettled)
    · exact sized_shrink _ _ _ _
  obtain ⟨new, hnew, hpieces⟩ := hset
  rw [hpieces]
  refine ⟨by rw [Array.size_setIfInBounds, h.length], ?_⟩
  intro i instr' piece hi hp hs
  by_cases heq : done = i
  · subst heq
    rw [Array.getElem?_setIfInBounds_self_of_lt hlt] at hp
    rw [hinstr] at hi
    cases hi
    cases hp
    exact hnew
  · rw [Array.getElem?_setIfInBounds_ne heq] at hp
    exact h.sized hi hp (hs.imp_left fun h => by omega)

theorem Measured.round {pieces : Array Piece} (h : Measured code 0 pieces) :
    Measured code code.length (round code pieces).pieces := by
  have hfold : ∀ (rest before : List (Instr Nat)) (pass : Pass), code = before ++ rest →
      Measured code before.length pass.pieces → Measured code code.length
        ((rest.zipIdx before.length).foldl (fun pass entry => Layout.visit pass entry.2 entry.1)
          pass).pieces := by
    intro rest
    induction rest with
    | nil =>
        intro before pass hcode hpass
        rw [hcode, List.append_nil] at hpass ⊢
        exact hpass
    | cons instr rest ih =>
        intro before pass hcode hpass
        have hinstr : code[before.length]? = some instr := by simp [hcode]
        have hnext := ih (before ++ [instr]) (Layout.visit pass before.length instr) (by simp [hcode])
        rw [List.length_append, List.length_singleton] at hnext
        exact hnext (hpass.visit hinstr)
  exact hfold code [] { pieces } rfl h

theorem Measured.rounds {pieces : Array Piece} (h : Measured code 0 pieces) (bound : Nat) :
    Measured code code.length (rounds code (bound + 1) pieces) := by
  induction bound generalizing pieces with
  | zero =>
      simp only [Layout.rounds]
      split <;> exact h.round
  | succ bound ih =>
      rw [Layout.rounds]
      split
      · exact h.round
      · exact ih h.round.fewer

theorem measured_start (position : Nat) (code : List (Instr Nat)) :
    Measured code 0 (start position code).toArray := by
  induction code generalizing position with
  | nil => exact ⟨rfl, fun hi => by cases hi⟩
  | cons instr code ih =>
      have hrest := ih (position + startSize instr)
      refine ⟨by simpa [start] using hrest.length, ?_⟩
      intro i instr' piece hi hp hs
      have hsettled := hs.resolve_left (Nat.not_lt_zero _)
      cases i with
      | zero =>
          cases hi
          cases hp
          have htarget := Option.isNone_iff_eq_none.mp hsettled
          cases instr
          case leaLabel => cases htarget
          case jump => cases htarget
          case jumpIf => cases htarget
          case call => cases htarget
          all_goals exact Instr.sized_size rfl
      | succ i =>
          simp only [start, List.getElem?_toArray, List.getElem?_cons_succ] at hi hp
          exact hrest.sized hi (by simpa using hp) (.inr hsettled)

/-- In the end every instruction has a size of one of its forms. -/
theorem sized_sizes (code : List (Instr Nat)) : List.Forall₂ Instr.Sized code (sizes code) := by
  have h := (measured_start 0 code).rounds 4
  rw [List.forall₂_iff_get]
  refine ⟨by simp [sizes, h.length], fun i hi hi' => ?_⟩
  have hpiece : i < (rounds code 5 (start 0 code).toArray).size := by rwa [h.length]
  have hsize := h.sized (List.getElem?_eq_getElem hi) (Array.getElem?_eq_getElem hpiece) (.inl hi)
  simpa [sizes] using hsize

end Layout

namespace Assembled
variable {label : Type}

/-- Instructions one behind the other from an offset on, each of the size of its bytes. -/
inductive Consecutive : Nat → Assembled label → Prop
  | nil {offset : Nat} : Consecutive offset []
  | cons {placed : Placed label} {rest : Assembled label} :
      placed.instr.Sized placed.size → Consecutive (placed.offset + placed.size) rest →
      Consecutive placed.offset (placed :: rest)

/-- Targets are the offsets of their labels. -/
def Linked [DecidableEq label] (code : Assembled label) : Prop :=
  ∀ placed ∈ code, placed.target = placed.instr.target?.map fun target => (code.offset? target).getD 0

end Assembled

namespace Assembler
variable {label : Type}

/-- Lines of the given sizes from an offset on. -/
def lay (target : label → Nat) : Nat → List (Line label) → List Nat → Assembled label
  | offset, line :: lines, size :: sizes =>
    ⟨line, offset, size, line.instr.target?.map target⟩ :: lay target (offset + size) lines sizes
  | _, _ :: _, [] => []
  | _, [], _ => []

/-- Where lines of the given sizes are, from the line with some index on. -/
def Offsets (offsetOf : Nat → Nat) (first offset : Nat) (sizes : List Nat) : Prop :=
  ∀ i, offsetOf (first + i) = ((Layout.offsets offset sizes)[i]?).getD 0

theorem Offsets.head {offsetOf : Nat → Nat} {first offset size : Nat} {sizes : List Nat}
    (h : Offsets offsetOf first offset (size :: sizes)) : offsetOf first = offset :=
  h 0

theorem Offsets.tail {offsetOf : Nat → Nat} {first offset size : Nat} {sizes : List Nat}
    (h : Offsets offsetOf first offset (size :: sizes)) :
    Offsets offsetOf (first + 1) (offset + size) sizes := by
  intro i
  have hi := h (i + 1)
  rw [Layout.offsets, List.getElem?_cons_succ] at hi
  rw [← hi]
  congr 1
  omega

theorem lay_eq (index : label → Nat) {offsetOf : Nat → Nat} {first offset : Nat}
    {lines : List (Line label)} {sizes : List Nat} (h : Offsets offsetOf first offset sizes) :
    (((lines.zip (lines.map fun line => line.instr.map index)).zip sizes).zipIdx first).map
      (fun entry => (⟨entry.1.1.1, offsetOf entry.2, entry.1.2,
        entry.1.1.2.target?.map offsetOf⟩ : Placed label)) =
      lay (fun target => offsetOf (index target)) offset lines sizes := by
  induction lines generalizing first offset sizes with
  | nil => rfl
  | cons line lines ih =>
      cases sizes with
      | nil => rfl
      | cons size sizes =>
          have hrest := ih h.tail
          simp only [List.map_cons, List.zip_cons_cons, List.zipIdx_cons, lay, h.head,
            Instr.target?_map, Option.map_map, hrest]
          rfl

theorem map_toLine_lay (target : label → Nat) (offset : Nat) {lines : List (Line label)}
    {sizes : List Nat} (h : sizes.length = lines.length) :
    (lay target offset lines sizes).map Placed.toLine = lines := by
  induction lines generalizing offset sizes with
  | nil => rw [lay]; rfl
  | cons line lines ih =>
      cases sizes with
      | nil => cases h
      | cons size sizes => rw [lay, List.map_cons, ih _ (Nat.succ.inj h)]

/-- The labels of laid out lines are those of the lines with the offsets of these. -/
theorem marks_lay (target : label → Nat) {offsetOf : Nat → Nat} {first offset : Nat}
    {lines : List (Line label)} {sizes : List Nat} (h : sizes.length = lines.length)
    (hoffset : Offsets offsetOf first offset sizes) :
    (lay target offset lines sizes).marks =
      ((lines.zipIdx first).filterMap fun entry => entry.1.mark.map (·, entry.2)).map
        fun entry => (entry.1, offsetOf entry.2) := by
  induction lines generalizing offset first sizes with
  | nil => rfl
  | cons line lines ih =>
      cases sizes with
      | nil => cases h
      | cons size sizes =>
          have hrest := ih (Nat.succ.inj h) hoffset.tail
          rw [Assembled.marks] at hrest ⊢
          rw [lay, List.filterMap_cons, List.zipIdx_cons, List.filterMap_cons, hrest]
          cases line.mark <;> simp [hoffset.head]

theorem lookup_map_snd [DecidableEq label] (f : Nat → Nat) (entries : List (label × Nat))
    (mark : label) :
    (entries.map fun entry => (entry.1, f entry.2)).lookup mark = (entries.lookup mark).map f := by
  induction entries with
  | nil => rfl
  | cons entry entries ih =>
      rw [List.map_cons, List.lookup_cons, List.lookup_cons, ih]
      cases mark == entry.1 <;> rfl

theorem consecutive_lay (target : label → Nat) (offset : Nat) {lines : List (Line label)}
    {sizes : List Nat} (h : List.Forall₂ (fun line size => line.instr.Sized size) lines sizes) :
    (lay target offset lines sizes).Consecutive offset := by
  induction h generalizing offset with
  | nil => exact .nil
  | @cons line size lines sizes hsize _ ih =>
      let placed : Placed label := ⟨line, offset, size, line.instr.target?.map target⟩
      have hplaced : placed.instr.Sized placed.size := hsize
      exact .cons hplaced (ih _)

theorem target_of_mem_lay {target : label → Nat} {offset : Nat} {lines : List (Line label)}
    {sizes : List Nat} {placed : Placed label} (h : placed ∈ lay target offset lines sizes) :
    placed.target = placed.instr.target?.map target := by
  induction lines generalizing offset sizes with
  | nil => cases h
  | cons line lines ih =>
      cases sizes with
      | nil => cases h
      | cons size sizes =>
          rcases List.mem_cons.mp h with rfl | h
          · rfl
          · exact ih h

variable [DecidableEq label]

theorem assemble_spec (lines : List (Line label)) :
    (assemble lines).map Placed.toLine = lines ∧ (assemble lines).Consecutive 0 ∧
      (assemble lines).Linked := by
  let index : label → Nat := fun target => ((indices lines).lookup target).getD 0
  let sizes := Layout.sizes (lines.map fun line => line.instr.map index)
  let offsetOf : Nat → Nat := fun i => (Layout.offsets 0 sizes).toArray.getD i 0
  have hoffset : Offsets offsetOf 0 0 sizes := by
    intro i
    show (Layout.offsets 0 sizes).toArray.getD (0 + i) 0 = _
    rw [Nat.zero_add, Array.getD_eq_getD_getElem?, List.getElem?_toArray]
  have hlay : assemble lines = lay (fun target => offsetOf (index target)) 0 lines sizes :=
    lay_eq index hoffset
  have hsized : List.Forall₂ (fun line size => line.instr.Sized size) lines sizes := by
    have h := Layout.sized_sizes (lines.map fun line => line.instr.map index)
    rw [List.forall₂_map_left_iff] at h
    exact h.imp fun _ _ => Instr.sized_of_map
  have hlength : sizes.length = lines.length := hsized.length_eq.symm
  have hlabel : ∀ target, offsetOf (index target) = ((assemble lines).offset? target).getD 0 := by
    intro target
    rw [hlay, Assembled.offset?, marks_lay _ hlength hoffset, lookup_map_snd]
    show offsetOf (((indices lines).lookup target).getD 0) = (((indices lines).lookup target).map _).getD 0
    cases (indices lines).lookup target with
    | some i => rfl
    | none =>
        have hfirst := hoffset 0
        rw [Nat.zero_add] at hfirst
        rw [Option.getD_none, Option.map_none, Option.getD_none, hfirst]
        cases sizes <;> rfl
  refine ⟨?_, ?_, ?_⟩
  · rw [hlay, map_toLine_lay _ _ hlength]
  · rw [hlay]
    exact consecutive_lay _ _ hsized
  · intro placed hplaced
    rw [hlay] at hplaced
    rw [target_of_mem_lay hplaced]
    cases placed.instr.target? with
    | none => rfl
    | some target => rw [Option.map_some, Option.map_some, hlabel]

end Assembler

end GotoLang.X64
