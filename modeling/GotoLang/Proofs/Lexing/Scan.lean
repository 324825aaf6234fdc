import Mathlib.Data.List.Basic
import GotoLang.Proofs.Lexing.Boundary

/-!
# The scanner follows the lexical grammar

Scanning a text gives exactly its cut into tokens if it has one, and otherwise the place where the cut
breaks off. The scanner reads characters and the grammar is about bytes: a class of characters matches
a class of bytes if each byte of a character is in the one where the character is in the other.
-/
namespace GotoLang

namespace Lexical

/-- The bytes of a character are in `q` just when the character is in `p`. -/
def Matches (p : Char → Bool) (q : UInt8 → Bool) : Prop :=
  ∀ c, ∀ b ∈ String.utf8EncodeChar c, q b = p c

/-- Both classes are told by the same condition on codes, and a code of one byte is that byte. -/
theorem matches_of_codes {p : Char → Bool} {q : UInt8 → Bool} (codes : Nat → Prop)
    (hascii : ∀ n, codes n → n < 128) (hp : ∀ c, p c ↔ codes c.toNat) (hq : ∀ b, q b ↔ codes b.toNat) :
    Matches p q := by
  intro c b hb
  rw [Bool.eq_iff_iff, hp, hq]
  by_cases hc : c.toNat < 128
  · rw [utf8EncodeChar_of_lt hc, List.mem_singleton] at hb
    have hcode : b.toNat = c.toNat := by
      rw [hb, Char.toUInt8, UInt32.toNat_toUInt8, Char.toNat_val]
      omega
    rw [hcode]
  · have hlarge := le_of_mem_utf8EncodeChar (Nat.le_of_not_lt hc) hb
    constructor
    · intro hin
      exact absurd (hascii _ hin) (Nat.not_lt.mpr hlarge)
    · intro hin
      exact absurd (hascii _ hin) hc

theorem isDigit_char_iff (c : Char) : c.isDigit ↔ 48 ≤ c.toNat ∧ c.toNat ≤ 57 := by
  simp only [Char.isDigit, Bool.and_eq_true, decide_eq_true_eq, ge_iff_le, UInt32.le_iff_toNat_le]
  rfl

theorem isWordStart_iff (c : Char) : Lexer.isWordStart c ↔
    ((65 ≤ c.toNat ∧ c.toNat ≤ 90) ∨ (97 ≤ c.toNat ∧ c.toNat ≤ 122)) ∨ c.toNat = 95 := by
  have halpha : c.isAlpha = (decide (c.val ≥ 'A'.val ∧ c.val ≤ 'Z'.val) ||
      (decide (c.val ≥ 'a'.val) && decide (c.val ≤ 'z'.val))) := rfl
  simp only [Lexer.isWordStart, halpha, Bool.or_eq_true, Bool.and_eq_true, decide_eq_true_eq, ge_iff_le,
    UInt32.le_iff_toNat_le, ← Char.toNat_inj]
  rfl

theorem isWordPart_eq (c : Char) : Lexer.isWordPart c = (Lexer.isWordStart c || c.isDigit) := by
  simp only [Lexer.isWordPart, Lexer.isWordStart, Char.isAlphanum]
  grind

theorem matches_digit : Matches Char.isDigit isDigit := by
  apply matches_of_codes (fun n => 48 ≤ n ∧ n ≤ 57) _ isDigit_char_iff isDigit_iff
  intro n h
  omega

theorem matches_wordStart : Matches Lexer.isWordStart isLetter := by
  apply matches_of_codes (fun n => ((65 ≤ n ∧ n ≤ 90) ∨ (97 ≤ n ∧ n ≤ 122)) ∨ n = 95) _ isWordStart_iff
    isLetter_iff
  intro n h
  omega

theorem matches_wordPart : Matches Lexer.isWordPart fun b => isLetter b || isDigit b := by
  intro c b hb
  dsimp only
  rw [isWordPart_eq, matches_wordStart c b hb, matches_digit c b hb]

theorem matches_blank : Matches Lexer.isBlank isBlank := by
  apply matches_of_codes (fun n => ((n = 32 ∨ n = 9) ∨ n = 13) ∨ n = 10) _ _ isBlank_iff
  · intro n h
    omega
  · intro c
    simp only [Lexer.isBlank, Bool.or_eq_true, decide_eq_true_eq, ← Char.toNat_inj]
    rfl

/-- The first byte of a text is a byte of its first character. -/
theorem mem_of_head {c : Char} {cs : List Char} {b : UInt8} (hb : b ∈ (encode (c :: cs)).head?) :
    b ∈ String.utf8EncodeChar c := by
  cases hc : String.utf8EncodeChar c with
  | nil => exact absurd hc String.utf8EncodeChar_ne_nil
  | cons b' bs =>
      rw [encode_cons, hc] at hb
      cases hb
      exact List.mem_cons_self

section Runs

variable {p : Char → Bool} {q : UInt8 → Bool}

theorem Matches.all (h : Matches p q) {cs : List Char} (hcs : ∀ c ∈ cs, p c) : ∀ b ∈ encode cs, q b := by
  intro b hb
  obtain ⟨c, hc, hb⟩ := List.mem_flatMap.mp hb
  rw [h c b hb]
  exact hcs c hc

/-- Behind a run of characters of a class comes no byte of that class. -/
theorem Matches.behind (h : Matches p q) (cs : List Char) :
    ∀ b ∈ (encode (cs.dropWhile p)).head?, q b = false := by
  intro b hb
  have hhead := List.head?_dropWhile_not p cs
  cases hrest : cs.dropWhile p with
  | nil =>
      rw [hrest] at hb
      cases hb
  | cons c rest =>
      rw [hrest] at hb hhead
      rw [h c b (mem_of_head hb)]
      exact hhead

end Runs

theorem utf8EncodeChar_of_isBlank {c : Char} (h : Lexer.isBlank c) :
    ∃ b, String.utf8EncodeChar c = [b] ∧ isBlank b := by
  obtain ⟨b, hb⟩ := List.exists_mem_of_ne_nil _ String.utf8EncodeChar_ne_nil
  have hblank : isBlank b := by rw [matches_blank c b hb, h]
  exact ⟨b, utf8EncodeChar_of_mem hb (lt_of_isBlank b hblank), hblank⟩

/-- A comment may have one more character. -/
theorem Trivia.comment_cons {c : Char} {gap rest : List UInt8} (hc : c ≠ '\n')
    (h : Trivia (hash :: gap) rest) : Trivia (hash :: (String.utf8EncodeChar c ++ gap)) rest := by
  cases h with
  | blank hb => exact absurd hb (by decide)
  | comment hbody hend h =>
      rw [← List.append_assoc]
      refine .comment ?_ hend h
      rw [List.mem_append, not_or]
      exact ⟨not_mem_utf8EncodeChar (by decide) hc, hbody⟩

/-- What is skipped within a comment are blanks and comments together with the sign that opened it. -/
theorem skip_sound (comment : Bool) (pos : Span) (cs : List Char) :
    ∃ gap, cs = gap ++ (Lexer.skip comment pos cs).2 ∧
      (Lexer.skip comment pos cs).1 = pos.advanceBy gap ∧
      Settled (encode (Lexer.skip comment pos cs).2) ∧
      Trivia (if comment then hash :: encode gap else encode gap)
        (encode (Lexer.skip comment pos cs).2) := by
  fun_induction Lexer.skip comment pos cs with
  | case1 comment pos =>
      refine ⟨[], rfl, rfl, stuck_nil.1, ?_⟩
      cases comment with
      | false => exact .done
      | true => exact .comment List.not_mem_nil (fun b hb => by cases hb) .done
  | case2 pos c cs ih =>
      obtain ⟨gap, hcs, hpos, hsettled, htrivia⟩ := ih
      refine ⟨c :: gap, by rw [List.cons_append, ← hcs], hpos, hsettled, ?_⟩
      rw [if_pos rfl, encode_cons]
      by_cases hc : c = '\n'
      · rw [if_neg (by simp [hc])] at htrivia
        have hnewline : String.utf8EncodeChar c = [newline] := by rw [hc]; decide
        rw [hnewline, ← List.nil_append ([newline] ++ encode gap)]
        refine .comment List.not_mem_nil ?_ (.blank (by decide) htrivia)
        intro b hb
        cases hb
        rfl
      · rw [if_pos (by simp [hc])] at htrivia
        exact htrivia.comment_cons hc
  | case3 comment pos c cs hcomment hblank ih =>
      obtain ⟨gap, hcs, hpos, hsettled, htrivia⟩ := ih
      refine ⟨c :: gap, by rw [List.cons_append, ← hcs], hpos, hsettled, ?_⟩
      obtain ⟨b, hc, hb⟩ := utf8EncodeChar_of_isBlank hblank
      rw [if_neg hcomment, encode_cons, hc]
      exact .blank hb htrivia
  | case4 comment pos cs hcomment _ ih =>
      obtain ⟨gap, hcs, hpos, hsettled, htrivia⟩ := ih
      refine ⟨'#' :: gap, by rw [List.cons_append, ← hcs], hpos, hsettled, ?_⟩
      rw [if_neg hcomment]
      exact htrivia
  | case5 comment pos c cs hcomment hblank hhash =>
      refine ⟨[], rfl, rfl, ?_, ?_⟩
      · intro b hb
        have hmem := mem_of_head hb
        constructor
        · rw [matches_blank c b hmem]
          exact Bool.eq_false_iff.mpr hblank
        · rintro rfl
          exact not_mem_utf8EncodeChar (by decide) hhash hmem
      · rw [if_neg hcomment]
        exact .done

theorem take_run (p : Char → Bool) (cs : List Char) :
    cs.take (cs.takeWhile p).length = cs.takeWhile p ∧
      cs.drop (cs.takeWhile p).length = cs.dropWhile p := by
  constructor
  · exact (List.prefix_iff_eq_take.mp (List.takeWhile_prefix p)).symm
  · have hsplit : cs.takeWhile p ++ cs.dropWhile p = cs := List.takeWhile_append_dropWhile
    conv_lhs =>
      arg 2
      rw [← hsplit]
    exact List.drop_left

/-- No run of a class reaches beyond a byte outside of it. -/
theorem length_le_of_run {q : UInt8 → Bool} {w rest longer : List UInt8} (hw : ∀ b ∈ w, q b)
    (hrest : ∀ b ∈ rest.head?, q b = false) (hlonger : ∀ b ∈ longer, q b) (h : longer <+: w ++ rest) :
    longer.length ≤ w.length := by
  obtain ⟨more, h⟩ := h
  have hrun := takeWhile_run hw hrest
  rw [← h, List.takeWhile_append_of_pos hlonger] at hrun
  rw [← hrun, List.length_append]
  exact Nat.le_add_right _ _

theorem Word.all {w : List UInt8} (h : Word w) : ∀ b ∈ w, isLetter b || isDigit b := by
  cases w with
  | nil => exact absurd h id
  | cons b bs =>
      rw [List.forall_mem_cons]
      exact ⟨by simp [h.1], h.2⟩

/-- The class of a lexeme is that of its first byte. -/
theorem Lexeme.of_first {b : UInt8} {bs : List UInt8} (h : Lexeme (b :: bs)) :
    (isDigit b → Digits (b :: bs)) ∧ (isLetter b → Word (b :: bs)) ∧
      (isDigit b = false → isLetter b = false → ∃ mark : Punct, b :: bs = bytes mark.text) := by
  obtain h | h | ⟨mark, h⟩ := h
  · have hdigit := h.2 b List.mem_cons_self
    simp [h, hdigit, isLetter_of_isDigit b hdigit]
  · have hletter : isLetter b := h.1
    simp [h, hletter, isDigit_of_isLetter b hletter]
  · obtain ⟨b', bs', hw, hb⟩ := starts_punct mark
    obtain ⟨rfl, rfl⟩ := List.cons.inj (h.trans hw)
    simp only [hb.1, hb.2.1, Bool.false_eq_true, false_implies, true_and]
    exact fun _ _ => ⟨mark, h⟩

/-- The longest lexeme, if all lexemes that start like it are runs of a class. -/
theorem longest_run {q : UInt8 → Bool} {w rest : List UInt8} (h : Lexeme w) (hw : ∀ b ∈ w, q b)
    (hrest : ∀ b ∈ rest.head?, q b = false)
    (hruns : ∀ longer, Lexeme longer → longer.head? = w.head? → ∀ b ∈ longer, q b) : Longest w rest := by
  refine ⟨h, ?_⟩
  intro longer hlonger hbegins
  apply length_le_of_run hw hrest _ hbegins
  apply hruns longer hlonger
  obtain ⟨b, bs, rfl, -⟩ := h.starts
  obtain ⟨b', bs', rfl, -⟩ := hlonger.starts
  obtain ⟨more, hmore⟩ := hbegins
  obtain ⟨rfl, -⟩ := List.cons.inj hmore
  rfl

theorem Digits.longest {w rest : List UInt8} (hw : Digits w)
    (hrest : ∀ b ∈ rest.head?, isDigit b = false) : Longest w rest := by
  apply longest_run (.inl hw) hw.2 hrest
  intro longer hlonger hhead
  obtain ⟨b, bs, rfl, hb⟩ := hw.starts
  obtain ⟨b', bs', rfl, -⟩ := hlonger.starts
  cases hhead
  exact (hlonger.of_first.1 hb).2

theorem Word.longest {w rest : List UInt8} (hw : Word w)
    (hrest : ∀ b ∈ rest.head?, (isLetter b || isDigit b) = false) : Longest w rest := by
  apply longest_run (.inr (.inl hw)) hw.all hrest
  intro longer hlonger hhead
  obtain ⟨b, bs, rfl, hb⟩ := hw.starts
  obtain ⟨b', bs', rfl, -⟩ := hlonger.starts
  cases hhead
  exact (hlonger.of_first.2.1 hb).all

theorem encode_ascii {cs : List Char} (h : ∀ c ∈ cs, c.toNat < 128) : encode cs = cs.map Char.toUInt8 := by
  induction cs with
  | nil => rfl
  | cons c cs ih =>
      obtain ⟨hc, hcs⟩ := List.forall_mem_cons.mp h
      rw [encode_cons, utf8EncodeChar_of_lt hc, ih hcs, List.map_cons, List.singleton_append]

theorem value_eq_foldl (w : List UInt8) : value w = w.foldl (fun n b => (b.toNat - '0'.toNat) + 10 * n) 0 := by
  rw [value, Nat.ofDigits_eq_foldr, List.foldr_map, List.foldr_reverse]
  rfl

theorem value_encode {cs : List Char} (h : ∀ c ∈ cs, c.isDigit) : value (encode cs) = Lexer.digitsValue cs := by
  have hascii : ∀ c ∈ cs, c.toNat < 128 := by
    intro c hc
    have hcode := (isDigit_char_iff c).mp (h c hc)
    omega
  rw [value_eq_foldl, encode_ascii hascii, List.foldl_map, Lexer.digitsValue]
  apply List.foldl_ext
  intro n c hc
  have hbyte : c.toUInt8.toNat = c.toNat := by
    rw [Char.toUInt8, UInt32.toNat_toUInt8, Char.toNat_val]
    have hlt := hascii c hc
    omega
  rw [hbyte, Nat.add_comm]

theorem means_wordKind {cs : List Char} (h : Word (encode cs)) :
    Means (encode cs) (Lexer.wordKind (String.ofList cs)) := by
  rw [Lexer.wordKind]
  split
  · next word hword =>
      have htext := List.find?_some hword
      rw [decide_eq_true_eq] at htext
      rw [Means, htext, bytes_ofList]
  · next hnone =>
      refine ⟨h, (bytes_ofList cs).symm, ?_⟩
      intro word hword
      have hne := List.find?_eq_none.mp hnone word (by cases word <;> decide)
      exact hne (decide_eq_true hword.symm)

theorem encode_injective : Function.Injective encode := by
  intro cs ds h
  rw [← bytes_ofList, ← bytes_ofList] at h
  rw [← String.toList_ofList (l := cs), bytes_injective h, String.toList_ofList]

theorem length_bytes_punct (mark : Punct) : (bytes mark.text).length = mark.text.toList.length := by
  cases mark <;> decide +kernel

theorem operator?_spec {c : Char} {cs : List Char} {mark : Punct} {more : Nat}
    (h : Lexer.operator? c cs.head? = some (mark, more)) :
    mark.text.toList = c :: cs.take more ∧ mark.text.toList.length = more + 1 := by
  cases cs <;> unfold Lexer.operator? at h <;> split at h <;> cases h <;> simp_all [Punct.text]

/-- No sign is longer than the operator that is read. -/
theorem operator?_longest {mark : Punct} {c : Char} {cs rest : List Char}
    (h : c :: cs = mark.text.toList ++ rest) :
    ∃ found more, Lexer.operator? c cs.head? = some (found, more) ∧ mark.text.toList.length ≤ more + 1 := by
  cases mark with
  | assign | less | greater =>
      -- the sign may also be the start of a longer one
      simp only [Punct.text] at h ⊢
      obtain ⟨rfl, rfl⟩ := List.cons.inj h
      unfold Lexer.operator?
      split <;> simp_all
  | _ =>
      simp [Punct.text] at h ⊢
      obtain ⟨rfl, rfl⟩ := h
      simp [Lexer.operator?]

/-- A lexeme that starts neither with a digit nor with a letter is found among the operators. -/
theorem operator?_of_lexeme {c : Char} {cs : List Char} {w : List UInt8} (hdigit : c.isDigit = false)
    (hword : Lexer.isWordStart c = false) (hw : Lexeme w) (hbegins : w <+: encode (c :: cs)) :
    ∃ found more, Lexer.operator? c cs.head? = some (found, more) ∧ w.length ≤ more + 1 := by
  obtain ⟨rest, hrest⟩ := hbegins
  obtain ⟨b, bs, rfl, -⟩ := hw.starts
  have hfirst : b ∈ (encode (c :: cs)).head? := by
    rw [← hrest]
    rfl
  have hb := mem_of_head hfirst
  obtain ⟨mark, hmark⟩ := hw.of_first.2.2 (by rw [matches_digit c b hb, hdigit])
    (by rw [matches_wordStart c b hb, hword])
  obtain ⟨ds, es, hsplit, hds, -⟩ := split_of_ascii hw.ascii hrest.symm
  have htext : ds = mark.text.toList := encode_injective (by rw [← hds, hmark, bytes_eq_encode])
  rw [hmark, length_bytes_punct]
  rw [htext] at hsplit
  exact operator?_longest hsplit

theorem digits_run {c : Char} (h : c.isDigit) (cs : List Char) :
    ∀ d ∈ c :: cs.takeWhile Char.isDigit, d.isDigit :=
  List.forall_mem_cons.mpr ⟨h, List.all_eq_true.mp List.all_takeWhile⟩

theorem digits_encode {c : Char} {cs : List Char} (h : ∀ d ∈ c :: cs, d.isDigit) : Digits (encode (c :: cs)) := by
  refine ⟨?_, matches_digit.all h⟩
  simp

theorem word_encode {c : Char} {cs : List Char} (hc : Lexer.isWordStart c) (hcs : ∀ d ∈ cs, Lexer.isWordPart d) :
    Word (encode (c :: cs)) := by
  have hascii : c.toNat < 128 := by
    have hcode := (isWordStart_iff c).mp hc
    omega
  rw [encode_cons, utf8EncodeChar_of_lt hascii]
  refine ⟨?_, matches_wordPart.all hcs⟩
  rw [matches_wordStart c c.toUInt8 (by simp [utf8EncodeChar_of_lt hascii]), hc]

theorem munch_sound {c : Char} {cs : List Char} {kind : Token.Kind} {more : Nat}
    (h : Lexer.munch c cs = .ok (kind, more)) :
    Longest (encode (c :: cs.take more)) (encode (cs.drop more)) ∧
      Means (encode (c :: cs.take more)) kind := by
  unfold Lexer.munch at h
  split at h
  · next hdigit =>
      have hrun := digits_run hdigit cs
      dsimp only at h
      split at h
      · next hvalue =>
          cases h
          rw [(take_run Char.isDigit cs).1, (take_run Char.isDigit cs).2]
          refine ⟨(digits_encode hrun).longest (matches_digit.behind cs), digits_encode hrun, value_encode hrun, ?_⟩
          exact hvalue
      · cases h
  · split at h
    · next hword =>
        have hw := word_encode hword (List.all_eq_true.mp (List.all_takeWhile (l := cs)))
        cases h
        rw [(take_run Lexer.isWordPart cs).1, (take_run Lexer.isWordPart cs).2]
        exact ⟨hw.longest (matches_wordPart.behind cs), means_wordKind hw⟩
    · next hdigit hword =>
        split at h
        · next mark more hoperator =>
            cases h
            have hspec := operator?_spec hoperator
            have hw : encode (c :: cs.take more) = bytes mark.text := by
              rw [bytes_eq_encode, hspec.1]
            refine ⟨⟨.inr (.inr ⟨mark, hw⟩), ?_⟩, hw⟩
            intro longer hlonger hbegins
            rw [← encode_append, List.cons_append, List.take_append_drop] at hbegins
            obtain ⟨found, more', hfound, hlength⟩ := operator?_of_lexeme (Bool.eq_false_iff.mpr hdigit)
              (Bool.eq_false_iff.mpr hword) hlonger hbegins
            cases hoperator.symm.trans hfound
            rw [hw, length_bytes_punct, hspec.2]
            exact hlength
        · cases h

theorem munch_error {c : Char} {cs : List Char} {fault : SyntaxFault}
    (h : Lexer.munch c cs = .error fault) (hsettled : Settled (encode (c :: cs))) :
    Unformed (encode (c :: cs)) fault := by
  unfold Lexer.munch at h
  split at h
  · next hdigit =>
      have hrun := digits_run hdigit cs
      dsimp only at h
      split at h
      · cases h
      · next hvalue =>
          cases h
          simp only [Unformed, bytes_ofList]
          refine ⟨digits_encode hrun, ?_, encode (cs.dropWhile Char.isDigit), ?_, ?_⟩
          · rw [value_encode hrun]
            exact Nat.lt_of_not_le hvalue
          · rw [← encode_append, List.cons_append, List.takeWhile_append_dropWhile]
          · exact (digits_encode hrun).longest (matches_digit.behind cs)
  · split at h
    · cases h
    · next hdigit hword =>
        split at h
        · cases h
        · next hoperator =>
            cases h
            refine ⟨?_, hsettled, ?_⟩
            · simp
            · intro w hw hbegins
              obtain ⟨found, more, hfound, -⟩ := operator?_of_lexeme (Bool.eq_false_iff.mpr hdigit)
                (Bool.eq_false_iff.mpr hword) hw hbegins
              cases hoperator.symm.trans hfound

theorem skip_spec {pos here : Span} {text rest : List Char} {before : List UInt8}
    (h : Lexer.skip false pos text = (here, rest)) (hpos : pos = position before) :
    ∃ gap, text = gap ++ rest ∧ here = position (before ++ encode gap) ∧ Settled (encode rest) ∧
      Trivia (encode gap) (encode rest) := by
  obtain ⟨gap, htext, hhere, hsettled, htrivia⟩ := skip_sound false pos text
  rw [h] at htext hhere hsettled htrivia
  refine ⟨gap, htext, ?_, hsettled, htrivia⟩
  rw [position_append_encode, ← hpos]
  exact hhere

/-- One step of the scanner puts one token in front of a cut. -/
theorem Cut.step {before : List UInt8} {gap cs : List Char} {c : Char} {kind : Token.Kind} {more : Nat}
    {tokens : List Token} {rest : List UInt8}
    (hgap : Trivia (encode gap) (encode (c :: cs))) (hmunch : Lexer.munch c cs = .ok (kind, more))
    (h : Cut (before ++ encode gap ++ encode (c :: cs.take more)) (encode (cs.drop more)) tokens rest) :
    Cut before (encode (gap ++ c :: cs)) (⟨kind, position (before ++ encode gap)⟩ :: tokens) rest := by
  obtain ⟨hlongest, hmeans⟩ := munch_sound hmunch
  have hcs : encode (c :: cs) = encode (c :: cs.take more) ++ encode (cs.drop more) := by
    rw [← encode_append, List.cons_append, List.take_append_drop]
  rw [hcs] at hgap
  refine ⟨encode gap, encode (c :: cs.take more), encode (cs.drop more), ?_, hgap, hlongest, hmeans, rfl, h⟩
  rw [encode_append, hcs]

theorem scanFrom_ok {pos : Span} {text : List Char} {stream : TokenStream} {before : List UInt8}
    (h : Lexer.scanFrom pos text = .ok stream) (hpos : pos = position before) :
    ∃ gap, Cut before (encode text) stream.tokens gap ∧ Trivia gap [] ∧
      stream.stop = position (before ++ encode text) := by
  fun_induction Lexer.scanFrom pos text generalizing stream before with
  | case1 pos text stop hskip =>
      cases h
      obtain ⟨gap, rfl, hstop, -, htrivia⟩ := skip_spec hskip hpos
      rw [List.append_nil]
      exact ⟨encode gap, rfl, htrivia, hstop⟩
  | case2 => cases h
  | case3 => cases h
  | case4 pos text here c cs hskip kind more hmunch rest hrest ih =>
      cases h
      obtain ⟨gap, rfl, rfl, -, htrivia⟩ := skip_spec hskip hpos
      obtain ⟨tail, hcut, htail, hstop⟩ := ih hrest (position_append_encode _ _).symm
      refine ⟨tail, hcut.step htrivia hmunch, htail, ?_⟩
      rw [hstop, encode_append]
      simp only [List.append_assoc, ← encode_append, List.cons_append, List.take_append_drop]

theorem scanFrom_error {pos : Span} {text : List Char} {e : SyntaxError} {before : List UInt8}
    (h : Lexer.scanFrom pos text = .error e) (hpos : pos = position before) :
    ∃ front tokens gap rest, encode text = front ++ (gap ++ rest) ∧
      Cut before (encode text) tokens (gap ++ rest) ∧ Trivia gap rest ∧ Unformed rest e.fault ∧
      e.span = position (before ++ front ++ gap) := by
  fun_induction Lexer.scanFrom pos text generalizing e before with
  | case1 => cases h
  | case2 pos text here c cs hskip fault hmunch =>
      cases h
      obtain ⟨gap, rfl, rfl, hsettled, htrivia⟩ := skip_spec hskip hpos
      refine ⟨[], [], encode gap, encode (c :: cs), ?_, ?_, htrivia, munch_error hmunch hsettled, ?_⟩
      · simp
      · simp [Cut]
      · simp
  | case3 pos text here c cs hskip kind more hmunch e' hrest ih =>
      cases h
      obtain ⟨gap, rfl, rfl, -, htrivia⟩ := skip_spec hskip hpos
      obtain ⟨front, tokens, gap', rest, htext, hcut, hgap', hfault, hspan⟩ :=
        ih hrest (position_append_encode _ _).symm
      refine ⟨encode gap ++ encode (c :: cs.take more) ++ front, _, gap', rest, ?_,
        hcut.step htrivia hmunch, hgap', hfault, ?_⟩
      · rw [List.append_assoc, ← htext]
        simp only [← encode_append, List.append_assoc, List.cons_append, List.take_append_drop]
      · rw [hspan]
        simp only [List.append_assoc]
  | case4 => cases h

/-- A cut that stands between two lexemes can be sliced there, and behind every lexeme that follows. -/
theorem boundaries {text : String} {before gap rest : List UInt8} {tokens : List Token}
    (htext : bytes text = before ++ (gap ++ rest)) (hcut : Cut [] (bytes text) tokens (gap ++ rest))
    (hgap : Trivia gap rest) :
    Boundary text before ∧ Boundary text (before ++ gap) ∧
      ∀ w, Lexeme w → w <+: rest → Boundary text (before ++ gap ++ w) := by
  rw [bytes_eq_encode] at htext hcut
  obtain ⟨ds, es, hcs, hes⟩ := hcut.split
  obtain ⟨ds', es', rfl, rfl, rfl⟩ := hgap.split hes.symm
  have hbefore : before = encode ds := by
    rw [hcs, encode_append, hes] at htext
    exact (List.append_cancel_right htext).symm
  subst hbefore
  refine ⟨boundary_encode ds _ hcs, ?_, ?_⟩
  · rw [← encode_append]
    exact boundary_encode _ es' (by rw [hcs, List.append_assoc])
  · rintro w hw ⟨more, hmore⟩
    obtain ⟨ds'', es'', rfl, rfl, -⟩ := split_of_ascii hw.ascii hmore.symm
    rw [← encode_append, ← encode_append]
    exact boundary_encode _ es'' (by rw [hcs, List.append_assoc, List.append_assoc])

end Lexical

namespace TokenStream

open Lexical

theorem splits_of_ok {text : String} {stream : TokenStream} (h : ofText text = .ok stream) :
    Splits (bytes text) stream := by
  rw [bytes_eq_encode]
  exact scanFrom_ok h (rfl : Span.start = position [])

theorem breaks_of_error {text : String} {e : SyntaxError} (h : ofText text = .error e) :
    Breaks (bytes text) e := by
  rw [bytes_eq_encode]
  exact scanFrom_error h (rfl : Span.start = position [])

/-- Scanning succeeds exactly for the texts that can be cut into longest lexemes, with the tokens of
the cut, and fails exactly where a cut breaks off. Every offset at which a lexeme starts or ends is one
that the text can be sliced at, and lines and columns stay within 32 bits. -/
theorem ofText_maximal_munch (text : String) (hsize : text.utf8ByteSize < 2 ^ 31) :
    (∀ stream, ofText text = .ok stream ↔ Splits (bytes text) stream) ∧
      (∀ e, ofText text = .error e ↔ Breaks (bytes text) e) ∧
      (∀ before tokens gap rest, bytes text = before ++ (gap ++ rest) →
        Cut [] (bytes text) tokens (gap ++ rest) → Trivia gap rest →
        Boundary text before ∧ Boundary text (before ++ gap) ∧
          ∀ w, Lexeme w → w <+: rest → Boundary text (before ++ gap ++ w)) ∧
      ∀ before, before <+: bytes text →
        (position before).line < 2 ^ 32 ∧ (position before).column < 2 ^ 32 := by
  refine ⟨?_, ?_, fun _ _ _ _ => boundaries, ?_⟩
  · intro stream
    refine ⟨splits_of_ok, fun h => ?_⟩
    cases hscan : ofText text with
    | ok stream' => rw [h.unique (splits_of_ok hscan)]
    | error e => exact absurd (breaks_of_error hscan) h.not_breaks
  · intro e
    refine ⟨breaks_of_error, fun h => ?_⟩
    cases hscan : ofText text with
    | ok stream => exact absurd h (splits_of_ok hscan).not_breaks
    | error e' => rw [h.unique (breaks_of_error hscan)]
  · intro before hbefore
    have hposition := position_le before
    have hlength := hbefore.length_le
    rw [length_bytes] at hlength
    omega

/-- A comment with a character of two bytes, a word with a digit and a number with leading zeros; and
a text whose second line has a character that starts no lexeme. -/
theorem ofText_maximal_munch_commented :
    "# é\nlet x1 = 007;".utf8ByteSize < 2 ^ 31 ∧ "9# ü\n $".utf8ByteSize < 2 ^ 31 ∧
      Splits (bytes "# é\nlet x1 = 007;")
        ⟨[⟨.keyword .letWord, ⟨2, 1⟩⟩, ⟨.ident "x1", ⟨2, 5⟩⟩, ⟨.punct .assign, ⟨2, 8⟩⟩, ⟨.int 7, ⟨2, 10⟩⟩,
          ⟨.punct .semi, ⟨2, 13⟩⟩], ⟨2, 14⟩⟩ ∧
      Breaks (bytes "9# ü\n $") ⟨⟨2, 2⟩, .unexpectedCharacter '$'⟩ := by
  have hcommented : "# é\nlet x1 = 007;".utf8ByteSize < 2 ^ 31 := by decide +kernel
  have hbroken : "9# ü\n $".utf8ByteSize < 2 ^ 31 := by decide +kernel
  refine ⟨hcommented, hbroken, ?_, ?_⟩
  · apply ((ofText_maximal_munch _ hcommented).1 _).mp
    decide +kernel
  · apply ((ofText_maximal_munch _ hbroken).2.1 _).mp
    decide +kernel

end TokenStream

end GotoLang
