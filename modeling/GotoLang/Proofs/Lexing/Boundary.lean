import GotoLang.Proofs.Lexing.Split

/-!
# Bytes and characters

Every byte that the lexical grammar looks at is a character of its own, and no byte of a longer
character is one of them. So a cut of the bytes of a text is a cut of its characters, and each of its
offsets is one that the text can be sliced at.
-/
namespace GotoLang

namespace Lexical

theorem utf8EncodeChar_of_lt {c : Char} (h : c.toNat < 128) :
    String.utf8EncodeChar c = [c.toUInt8] := by
  apply String.utf8EncodeChar_eq_singleton
  rw [Char.utf8Size_eq_one_iff, UInt32.le_iff_toNat_le]
  exact Nat.le_of_lt_succ h

theorem le_of_mem_utf8EncodeChar {c : Char} (h : 128 ≤ c.toNat) {b : UInt8}
    (hb : b ∈ String.utf8EncodeChar c) : 128 ≤ b.toNat := by
  have hval : ¬ c.val.toNat ≤ 127 := Nat.not_le.mpr h
  unfold String.utf8EncodeChar at hb
  simp only [hval, if_false] at hb
  split at hb
  · simp at hb
    rcases hb with rfl | rfl <;> simp <;> omega
  · split at hb
    · simp at hb
      rcases hb with rfl | rfl | rfl <;> simp <;> omega
    · simp at hb
      rcases hb with rfl | rfl | rfl | rfl <;> simp <;> omega

/-- A byte below 128 is a whole character. -/
theorem utf8EncodeChar_of_mem {c : Char} {b : UInt8} (hb : b ∈ String.utf8EncodeChar c)
    (hlt : b.toNat < 128) : String.utf8EncodeChar c = [b] := by
  have hascii : c.toNat < 128 := by
    by_contra hlarge
    have hle := le_of_mem_utf8EncodeChar (Nat.le_of_not_lt hlarge) hb
    omega
  rw [utf8EncodeChar_of_lt hascii] at hb ⊢
  rw [List.mem_singleton.mp hb]

theorem not_mem_utf8EncodeChar {c d : Char} (hd : d.toNat < 128) (h : c ≠ d) :
    d.toUInt8 ∉ String.utf8EncodeChar c := by
  intro hmem
  have hbyte : d.toUInt8.toNat < 128 := by
    rw [Char.toUInt8, UInt32.toNat_toUInt8, Char.toNat_val]
    omega
  have hfirst : encode [c] = encode [d] := by
    rw [encode_cons, encode_cons, utf8EncodeChar_of_mem hmem hbyte, utf8EncodeChar_of_lt hd]
  exact h (first_unique (List.prefix_refl _) (hfirst ▸ List.prefix_refl _))

theorem split_of_ascii {cs : List Char} {w rest : List UInt8} (hw : ∀ b ∈ w, b.toNat < 128)
    (h : encode cs = w ++ rest) : ∃ ds es, cs = ds ++ es ∧ w = encode ds ∧ rest = encode es := by
  induction w generalizing cs with
  | nil => exact ⟨[], cs, rfl, rfl, h.symm⟩
  | cons b w ih =>
      obtain ⟨hb, hw⟩ := List.forall_mem_cons.mp hw
      cases cs with
      | nil => cases h
      | cons c cs =>
          rw [encode_cons, List.cons_append] at h
          have hmem : b ∈ String.utf8EncodeChar c := by
            cases hc : String.utf8EncodeChar c with
            | nil => exact absurd hc String.utf8EncodeChar_ne_nil
            | cons b' bs =>
                rw [hc, List.cons_append, List.cons.injEq] at h
                rw [h.1]
                exact List.mem_cons_self
          have hc := utf8EncodeChar_of_mem hmem hb
          rw [hc, List.singleton_append, List.cons.injEq] at h
          obtain ⟨ds, es, rfl, rfl, rfl⟩ := ih hw h.2
          exact ⟨c :: ds, es, rfl, by rw [encode_cons, hc, List.singleton_append], rfl⟩

/-- A byte of one character, or the end of the text, follows only behind a whole character. -/
theorem split_of_head {cs : List Char} {body rest : List UInt8} (hrest : ∀ b ∈ rest.head?, b.toNat < 128)
    (h : encode cs = body ++ rest) : ∃ ds es, cs = ds ++ es ∧ body = encode ds ∧ rest = encode es := by
  induction cs generalizing body with
  | nil =>
      obtain ⟨rfl, rfl⟩ := List.append_eq_nil_iff.mp h.symm
      exact ⟨[], [], rfl, rfl, rfl⟩
  | cons c cs ih =>
      rw [encode_cons, List.append_eq_append_iff] at h
      obtain ⟨body', rfl, h⟩ | ⟨front, hc, rfl⟩ := h
      · obtain ⟨ds, es, rfl, rfl, rfl⟩ := ih h
        exact ⟨c :: ds, es, rfl, rfl, rfl⟩
      · -- the first character reaches beyond the body unless it is the body
        cases front with
        | nil => exact ⟨[c], cs, rfl, by simp [hc], rfl⟩
        | cons b bs =>
            have hwhole := utf8EncodeChar_of_mem (c := c) (b := b) (by simp [hc]) (hrest b rfl)
            have hbody : body = [] := by
              have hlen := congrArg List.length (hc.symm.trans hwhole)
              simp only [List.length_append, List.length_cons, List.length_nil] at hlen
              exact List.eq_nil_of_length_eq_zero (by omega)
            subst hbody
            exact ⟨[], c :: cs, rfl, rfl, by rw [encode_cons, hc, List.nil_append]⟩

theorem lt_of_isBlank (b : UInt8) (h : isBlank b) : b.toNat < 128 := by
  rw [isBlank_iff] at h
  omega

theorem lt_of_isDigit (b : UInt8) (h : isDigit b) : b.toNat < 128 := by
  rw [isDigit_iff] at h
  omega

theorem lt_of_isLetter (b : UInt8) (h : isLetter b) : b.toNat < 128 := by
  rw [isLetter_iff] at h
  omega

theorem Lexeme.ascii {w : List UInt8} (h : Lexeme w) : ∀ b ∈ w, b.toNat < 128 := by
  obtain h | h | ⟨mark, rfl⟩ := h
  · intro b hb
    exact lt_of_isDigit b (h.2 b hb)
  · cases w with
    | nil => exact absurd h id
    | cons b bs =>
        rw [List.forall_mem_cons]
        constructor
        · exact lt_of_isLetter b h.1
        · intro c hc
          cases Bool.or_eq_true_iff.mp (h.2 c hc) with
          | inl hletter => exact lt_of_isLetter c hletter
          | inr hdigit => exact lt_of_isDigit c hdigit
  · cases mark <;> decide +kernel

/-- Blanks and comments are whole characters. -/
theorem Trivia.split {cs : List Char} {gap rest : List UInt8} (h : Trivia gap rest)
    (hcs : encode cs = gap ++ rest) : ∃ ds es, cs = ds ++ es ∧ gap = encode ds ∧ rest = encode es := by
  induction h generalizing cs with
  | done => exact ⟨[], cs, rfl, rfl, hcs.symm⟩
  | @blank b gap rest hb h ih =>
      rw [List.cons_append, ← List.singleton_append] at hcs
      obtain ⟨ds, es, rfl, hds, hes⟩ := split_of_ascii (by simpa using lt_of_isBlank b hb) hcs
      obtain ⟨ds', es, rfl, rfl, rfl⟩ := ih hes.symm
      exact ⟨ds ++ ds', es, by simp, by simp [← hds], rfl⟩
  | @comment body gap rest hbody hend h ih =>
      rw [List.cons_append, List.append_assoc, ← List.singleton_append] at hcs
      obtain ⟨ds, es, rfl, hds, hes⟩ := split_of_ascii
        (List.forall_mem_singleton.mpr (by decide)) hcs
      obtain ⟨ds', es', rfl, rfl, hes'⟩ := split_of_head
        (fun b hb => hend b hb ▸ (by decide : newline.toNat < 128)) hes.symm
      obtain ⟨ds'', es'', rfl, rfl, rfl⟩ := ih hes'.symm
      exact ⟨ds ++ ds' ++ ds'', es'', by simp, by simp [← hds], rfl⟩

/-- A cut leaves whole characters. -/
theorem Cut.split {cs : List Char} {before rest : List UInt8} {tokens : List Token}
    (h : Cut before (encode cs) tokens rest) : ∃ ds es, cs = ds ++ es ∧ rest = encode es := by
  induction tokens generalizing before cs with
  | nil => exact ⟨[], cs, rfl, h⟩
  | cons token tokens ih =>
      obtain ⟨gap, w, more, htext, hgap, hlongest, -, -, h⟩ := h
      obtain ⟨ds, es, rfl, -, hes⟩ := hgap.split htext
      obtain ⟨ds', es', rfl, -, rfl⟩ := split_of_ascii hlongest.1.ascii hes.symm
      obtain ⟨ds'', es'', rfl, rfl⟩ := ih h
      exact ⟨ds ++ ds' ++ ds'', es'', by simp, rfl⟩

theorem length_bytes (text : String) : (bytes text).length = text.utf8ByteSize := rfl

/-- The text can be sliced behind these bytes. -/
def Boundary (text : String) (before : List UInt8) : Prop :=
  String.Pos.Raw.IsValid text ⟨before.length⟩

theorem boundary_encode {text : String} (cs ds : List Char) (h : text.toList = cs ++ ds) :
    Boundary text (encode cs) := by
  unfold Boundary
  rw [String.Pos.Raw.isValid_iff_exists_append]
  refine ⟨String.ofList cs, String.ofList ds, ?_, ?_⟩
  · rw [← String.ofList_append, ← h, String.ofList_toList]
  · rw [← bytes_ofList, length_bytes]
    rfl

theorem position_append_char (before : List UInt8) (c : Char) :
    position (before ++ String.utf8EncodeChar c) = (position before).advance c := by
  by_cases hc : c = '\n'
  · subst hc
    have hencode : String.utf8EncodeChar '\n' = [newline] := by decide
    simp [hencode, position, Span.advance, Nat.add_assoc]
  · have hother : newline ∉ String.utf8EncodeChar c := not_mem_utf8EncodeChar (by decide) hc
    have hrun : ∀ b ∈ (String.utf8EncodeChar c).reverse, decide (b ≠ newline) = true := by
      rintro b hb
      simp only [ne_eq, decide_not, Bool.not_eq_true', decide_eq_false_iff_not]
      rintro rfl
      exact hother (List.mem_reverse.mp hb)
    simp only [position, Span.advance, if_neg hc, List.count_append, List.reverse_append,
      List.count_eq_zero_of_not_mem hother, List.takeWhile_append_of_pos hrun, List.length_append,
      List.length_reverse, String.length_utf8EncodeChar, Span.mk.injEq]
    omega

theorem position_append_encode (before : List UInt8) (cs : List Char) :
    position (before ++ encode cs) = (position before).advanceBy cs := by
  induction cs generalizing before with
  | nil => simp
  | cons c cs ih => rw [encode_cons, ← List.append_assoc, ih, position_append_char, Span.advanceBy_cons]

/-- Lines and columns do not exceed the number of bytes. -/
theorem position_le (before : List UInt8) :
    (position before).line ≤ before.length + 1 ∧ (position before).column ≤ before.length + 1 := by
  have hcount := List.count_le_length (a := newline) (l := before)
  have hcolumn := List.takeWhile_prefix (l := before.reverse) (· ≠ newline) |>.length_le
  rw [List.length_reverse] at hcolumn
  simp only [position]
  omega

end Lexical

end GotoLang
