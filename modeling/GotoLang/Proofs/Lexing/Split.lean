import Mathlib.Data.Nat.Digits.Defs
import GotoLang.Sink
import GotoLang.Token.Lexer

/-!
# The lexical grammar over bytes

What it means to cut the bytes of a text into tokens, said without a scanner: blanks and comments
alternate with lexemes, and each lexeme is the longest word, digit run or sign that starts where it
stands. A position counts the line ends before it and the bytes since the last of them.

A text has at most one such cut, and at most one place where a cut breaks off.
-/
namespace GotoLang

namespace Lexical

/-- The bytes of a run of characters. -/
def encode (cs : List Char) : List UInt8 := cs.flatMap String.utf8EncodeChar

/-- The bytes of a text. -/
def bytes (text : String) : List UInt8 := (Bytes.ofText text).toList

def newline : UInt8 := '\n'.toUInt8

def hash : UInt8 := '#'.toUInt8

def isBlank (b : UInt8) : Bool :=
  b = ' '.toUInt8 || b = '\t'.toUInt8 || b = '\r'.toUInt8 || b = newline

def isDigit (b : UInt8) : Bool :=
  '0'.toUInt8 ≤ b && b ≤ '9'.toUInt8

def isLetter (b : UInt8) : Bool :=
  ('A'.toUInt8 ≤ b && b ≤ 'Z'.toUInt8) || ('a'.toUInt8 ≤ b && b ≤ 'z'.toUInt8) || b = '_'.toUInt8

/-- Where a text goes on behind these bytes. -/
def position (before : List UInt8) : Span :=
  ⟨1 + before.count newline, 1 + (before.reverse.takeWhile (· ≠ newline)).length⟩

/-- The number that decimal digits write. -/
def value (digits : List UInt8) : Nat :=
  Nat.ofDigits 10 (digits.reverse.map fun b => b.toNat - '0'.toNat)

/-- Nothing but digits. -/
def Digits (w : List UInt8) : Prop := w ≠ [] ∧ ∀ b ∈ w, isDigit b

/-- A letter, then letters and digits; the underscore counts as a letter. -/
def Word : List UInt8 → Prop
  | [] => False
  | b :: bs => isLetter b ∧ ∀ c ∈ bs, isLetter c || isDigit c

/-- A digit run, a word or a sign. -/
def Lexeme (w : List UInt8) : Prop :=
  Digits w ∨ Word w ∨ ∃ mark : Punct, w = bytes mark.text

/-- No longer lexeme starts where `w` does. -/
def Longest (w rest : List UInt8) : Prop :=
  Lexeme w ∧ ∀ longer, Lexeme longer → longer <+: w ++ rest → longer.length ≤ w.length

/-- The kind of token that a lexeme is. A word is reserved only as a whole, and a number may be one
above the largest signed word. -/
def Means (w : List UInt8) : Token.Kind → Prop
  | .int n => Digits w ∧ value w = n ∧ n ≤ 2 ^ 63
  | .keyword word => w = bytes word.text
  | .ident name => Word w ∧ w = bytes name ∧ ∀ word : Keyword, name ≠ word.text
  | .punct mark => w = bytes mark.text

/-- Blanks and comments in front of `rest`. A comment ends at a line end or where the text ends. -/
inductive Trivia : List UInt8 → List UInt8 → Prop where
  | done {rest : List UInt8} : Trivia [] rest
  | blank {b : UInt8} {gap rest : List UInt8} (hb : isBlank b) (h : Trivia gap rest) :
      Trivia (b :: gap) rest
  | comment {body gap rest : List UInt8} (hbody : newline ∉ body)
      (hend : ∀ b ∈ (gap ++ rest).head?, b = newline) (h : Trivia gap rest) :
      Trivia (hash :: (body ++ gap)) rest

/-- `Cut before text tokens rest`: behind the bytes `before`, the text `text` starts with these
tokens, and `rest` is left. -/
def Cut (before text : List UInt8) : List Token → List UInt8 → Prop
  | [], rest => rest = text
  | token :: tokens, rest => ∃ gap w more, text = gap ++ (w ++ more) ∧ Trivia gap (w ++ more) ∧
      Longest w more ∧ Means w token.kind ∧ token.span = position (before ++ gap) ∧
      Cut (before ++ gap ++ w) more tokens rest

/-- The text is cut into these tokens up to its end. -/
def Splits (text : List UInt8) (stream : TokenStream) : Prop :=
  ∃ gap, Cut [] text stream.tokens gap ∧ Trivia gap [] ∧ stream.stop = position text

/-- Neither a blank nor a comment comes next. -/
def Settled (rest : List UInt8) : Prop := ∀ b ∈ rest.head?, isBlank b = false ∧ b ≠ hash

/-- Why no token can be formed in front of these bytes: either no lexeme starts there, or the longest
one is a number that is too large. -/
def Unformed (rest : List UInt8) : SyntaxFault → Prop
  | .unexpectedCharacter c => encode [c] <+: rest ∧ Settled rest ∧ ∀ w, Lexeme w → ¬ w <+: rest
  | .literalOutOfRange digits => Digits (bytes digits) ∧ 2 ^ 63 < value (bytes digits) ∧
      ∃ more, rest = bytes digits ++ more ∧ Longest (bytes digits) more
  | _ => False

/-- The cut breaks off at the first lexeme that cannot be formed. -/
def Breaks (text : List UInt8) (e : SyntaxError) : Prop :=
  ∃ before tokens gap rest, text = before ++ (gap ++ rest) ∧ Cut [] text tokens (gap ++ rest) ∧
    Trivia gap rest ∧ Unformed rest e.fault ∧ e.span = position (before ++ gap)

@[simp] theorem encode_nil : encode [] = [] := rfl

@[simp] theorem encode_cons (c : Char) (cs : List Char) :
    encode (c :: cs) = String.utf8EncodeChar c ++ encode cs := rfl

@[simp] theorem encode_append (cs ds : List Char) : encode (cs ++ ds) = encode cs ++ encode ds :=
  List.flatMap_append

theorem bytes_ofList (cs : List Char) : bytes (String.ofList cs) = encode cs := by
  rw [bytes, Bytes.ofText, String.toUTF8_eq_toByteArray, String.toByteArray_ofList, List.utf8Encode,
    List.toList_data_toByteArray, encode]

theorem bytes_eq_encode (text : String) : bytes text = encode text.toList := by
  rw [← bytes_ofList, String.ofList_toList]

theorem bytes_injective : Function.Injective bytes := by
  intro s t h
  apply String.toByteArray_inj.mp
  apply ByteArray.ext
  apply Array.toList_inj.mp
  exact h

/-- The first character of a text can be told from its bytes. -/
theorem first_unique {c d : Char} {rest : List UInt8} (hc : encode [c] <+: rest)
    (hd : encode [d] <+: rest) : c = d := by
  have hdecode : ∀ {c : Char}, encode [c] <+: rest →
      ByteArray.utf8DecodeChar? rest.toByteArray 0 = some c := by
    rintro c ⟨more, rfl⟩
    rw [encode_cons, encode_nil, List.append_nil, List.toByteArray_append]
    exact ByteArray.utf8DecodeChar?_utf8EncodeChar_append
  exact Option.some.inj ((hdecode hc).symm.trans (hdecode hd))

theorem isDigit_iff (b : UInt8) : isDigit b ↔ 48 ≤ b.toNat ∧ b.toNat ≤ 57 := by
  simp only [isDigit, Bool.and_eq_true, decide_eq_true_eq, UInt8.le_iff_toNat_le]
  rfl

theorem isLetter_iff (b : UInt8) :
    isLetter b ↔ ((65 ≤ b.toNat ∧ b.toNat ≤ 90) ∨ (97 ≤ b.toNat ∧ b.toNat ≤ 122)) ∨ b.toNat = 95 := by
  simp only [isLetter, Bool.or_eq_true, Bool.and_eq_true, decide_eq_true_eq, UInt8.le_iff_toNat_le,
    ← UInt8.toNat_inj]
  rfl

theorem isBlank_iff (b : UInt8) :
    isBlank b ↔ ((b.toNat = 32 ∨ b.toNat = 9) ∨ b.toNat = 13) ∨ b.toNat = 10 := by
  simp only [isBlank, Bool.or_eq_true, decide_eq_true_eq, ← UInt8.toNat_inj]
  rfl

theorem isLetter_of_isDigit (b : UInt8) (h : isDigit b) : isLetter b = false := by
  rw [isDigit_iff] at h
  rw [← Bool.not_eq_true, isLetter_iff]
  omega

theorem isDigit_of_isLetter (b : UInt8) (h : isLetter b) : isDigit b = false := by
  rw [isLetter_iff] at h
  rw [← Bool.not_eq_true, isDigit_iff]
  omega

theorem settled_of_isDigit (b : UInt8) (h : isDigit b) : isBlank b = false ∧ b ≠ hash := by
  constructor
  · rw [isDigit_iff] at h
    rw [← Bool.not_eq_true, isBlank_iff]
    omega
  · rintro rfl
    exact absurd h (by decide)

theorem settled_of_isLetter (b : UInt8) (h : isLetter b) : isBlank b = false ∧ b ≠ hash := by
  constructor
  · rw [isLetter_iff] at h
    rw [← Bool.not_eq_true, isBlank_iff]
    omega
  · rintro rfl
    exact absurd h (by decide)

/-- A run of one class ends where a byte outside the class follows. -/
theorem takeWhile_run {p : UInt8 → Bool} {w rest : List UInt8} (hw : ∀ b ∈ w, p b)
    (hrest : ∀ b ∈ rest.head?, p b = false) : (w ++ rest).takeWhile p = w := by
  rw [List.takeWhile_append_of_pos hw]
  cases rest with
  | nil => simp
  | cons b bs => simp [hrest b rfl]

theorem run_unique {p : UInt8 → Bool} {w w' rest rest' : List UInt8} (hw : ∀ b ∈ w, p b)
    (hrest : ∀ b ∈ rest.head?, p b = false) (hw' : ∀ b ∈ w', p b)
    (hrest' : ∀ b ∈ rest'.head?, p b = false) (h : w ++ rest = w' ++ rest') :
    w = w' ∧ rest = rest' := by
  have heq : w = w' := by
    rw [← takeWhile_run hw hrest, h, takeWhile_run hw' hrest']
  subst heq
  exact ⟨rfl, List.append_cancel_left h⟩

/-- What the first byte of a lexeme of some kind is. -/
def Starts (b : UInt8) : Token.Kind → Prop
  | .int _ => isDigit b
  | .keyword _ | .ident _ => isLetter b
  | .punct _ => isDigit b = false ∧ isLetter b = false ∧ isBlank b = false ∧ b ≠ hash

theorem word_keyword (word : Keyword) : Word (bytes word.text) := by
  have hshape : isLetter ((bytes word.text).headD 0) ∧
      ∀ c ∈ (bytes word.text).tail, isLetter c || isDigit c := by
    cases word <;> decide +kernel
  cases hw : bytes word.text with
  | nil => rw [hw] at hshape; exact absurd hshape.1 (by decide)
  | cons b bs => rwa [hw] at hshape

theorem starts_punct (mark : Punct) : ∃ b bs, bytes mark.text = b :: bs ∧ Starts b (.punct mark) := by
  have hshape : bytes mark.text ≠ [] ∧ ∀ b ∈ (bytes mark.text).head?,
      isDigit b = false ∧ isLetter b = false ∧ isBlank b = false ∧ b ≠ hash := by
    cases mark <;> decide +kernel
  cases hw : bytes mark.text with
  | nil => exact absurd hw hshape.1
  | cons b bs => exact ⟨b, bs, rfl, hshape.2 b (by rw [hw]; rfl)⟩

theorem Digits.starts {w : List UInt8} (h : Digits w) : ∃ b bs, w = b :: bs ∧ isDigit b := by
  cases w with
  | nil => exact absurd rfl h.1
  | cons b bs => exact ⟨b, bs, rfl, h.2 b List.mem_cons_self⟩

theorem Word.starts {w : List UInt8} (h : Word w) : ∃ b bs, w = b :: bs ∧ isLetter b := by
  cases w with
  | nil => exact absurd h id
  | cons b bs => exact ⟨b, bs, rfl, h.1⟩

theorem Means.starts {w : List UInt8} {kind : Token.Kind} (h : Means w kind) :
    ∃ b bs, w = b :: bs ∧ Starts b kind := by
  cases kind with
  | int n => exact h.1.starts
  | keyword word =>
      subst h
      exact (word_keyword word).starts
  | ident name => exact h.1.starts
  | punct mark =>
      subst h
      exact starts_punct mark

theorem Lexeme.starts {w : List UInt8} (h : Lexeme w) :
    ∃ b bs, w = b :: bs ∧ isBlank b = false ∧ b ≠ hash := by
  obtain h | h | ⟨mark, rfl⟩ := h
  · obtain ⟨b, bs, rfl, hb⟩ := h.starts
    exact ⟨b, bs, rfl, settled_of_isDigit b hb⟩
  · obtain ⟨b, bs, rfl, hb⟩ := h.starts
    exact ⟨b, bs, rfl, settled_of_isLetter b hb⟩
  · obtain ⟨b, bs, hw, hb⟩ := starts_punct mark
    exact ⟨b, bs, hw, hb.2.2⟩

theorem keyword_text_injective : Function.Injective Keyword.text := by
  intro word word' h
  have hread : ∀ word : Keyword, Keyword.ofText? word.text = some word := by
    intro word
    cases word <;> decide +kernel
  exact Option.some.inj ((hread word).symm.trans (h ▸ hread word'))

theorem punct_text_injective : Function.Injective Punct.text := by
  intro mark mark' h
  have hread : ∀ mark : Punct, (Lexer.operator? (mark.text.toList.headD ' ')
      mark.text.toList.tail.head?).map Prod.fst = some mark := by
    intro mark
    cases mark <;> decide +kernel
  exact Option.some.inj ((hread mark).symm.trans (h ▸ hread mark'))

/-- A lexeme is of one kind only. -/
theorem Means.unique {w : List UInt8} {kind kind' : Token.Kind} (h : Means w kind)
    (h' : Means w kind') : kind = kind' := by
  obtain ⟨b, bs, hw, hb⟩ := h.starts
  obtain ⟨b', bs', hw', hb'⟩ := h'.starts
  obtain ⟨rfl, rfl⟩ := List.cons.inj (hw.symm.trans hw')
  have hdisjoint := isLetter_of_isDigit b
  -- the first byte separates numbers, words and signs from each other
  cases kind with
  | int n =>
      cases kind' with
      | int n' => rw [← h.2.1, ← h'.2.1]
      | keyword | ident => simp_all [Starts]
      | punct => simp_all [Starts]
  | keyword word =>
      cases kind' with
      | int => simp_all [Starts]
      | keyword word' => rw [keyword_text_injective (bytes_injective (h.symm.trans h'))]
      | ident name => exact absurd (bytes_injective (h'.2.1.symm.trans h)) (h'.2.2 word)
      | punct => simp_all [Starts]
  | ident name =>
      cases kind' with
      | int => simp_all [Starts]
      | keyword word => exact absurd (bytes_injective (h.2.1.symm.trans h')) (h.2.2 word)
      | ident name' => rw [bytes_injective (h.2.1.symm.trans h'.2.1)]
      | punct => simp_all [Starts]
  | punct mark =>
      cases kind' with
      | int => simp_all [Starts]
      | keyword | ident => simp_all [Starts]
      | punct mark' => rw [punct_text_injective (bytes_injective (h.symm.trans h'))]

theorem Longest.settled {w rest : List UInt8} (h : Longest w rest) : Settled (w ++ rest) := by
  obtain ⟨b, bs, rfl, hb⟩ := h.1.starts
  intro b' hb'
  cases hb'
  exact hb

theorem Longest.unique {w w' rest rest' : List UInt8} (h : Longest w rest) (h' : Longest w' rest')
    (heq : w ++ rest = w' ++ rest') : w = w' ∧ rest = rest' := by
  have hle := h.2 w' h'.1 (heq ▸ List.prefix_append w' rest')
  have hle' := h'.2 w h.1 (heq ▸ List.prefix_append w rest)
  exact List.append_inj heq (Nat.le_antisymm hle' hle)

theorem Trivia.eq_nil {gap rest : List UInt8} (h : Trivia gap rest) (hsettled : Settled (gap ++ rest)) :
    gap = [] := by
  cases h with
  | done => rfl
  | blank hb => exact absurd hb (by simp [(hsettled _ rfl).1])
  | comment => exact absurd rfl (hsettled _ rfl).2

/-- Blanks and comments are taken as far as they go. -/
theorem Trivia.unique {gap gap' rest rest' : List UInt8} (h : Trivia gap rest)
    (h' : Trivia gap' rest') (hrest : Settled rest) (hrest' : Settled rest')
    (heq : gap ++ rest = gap' ++ rest') : gap = gap' ∧ rest = rest' := by
  induction h generalizing gap' with
  | done =>
      rw [List.nil_append] at heq
      subst heq
      have hnil := h'.eq_nil hrest
      subst hnil
      exact ⟨rfl, rfl⟩
  | blank hb h ih =>
      cases h' with
      | done =>
          rw [List.nil_append] at heq
          exact absurd ((blank hb h).eq_nil (heq ▸ hrest')) (List.cons_ne_nil _ _)
      | blank hb' h' =>
          simp only [List.cons_append, List.cons.injEq] at heq
          obtain ⟨rfl, heq⟩ := heq
          obtain ⟨rfl, rfl⟩ := ih h' hrest heq
          exact ⟨rfl, rfl⟩
      | comment =>
          simp only [List.cons_append, List.cons.injEq] at heq
          rw [heq.1] at hb
          exact absurd hb (by decide)
  | comment hbody hend h ih =>
      cases h' with
      | done =>
          rw [List.nil_append] at heq
          exact absurd ((comment hbody hend h).eq_nil (heq ▸ hrest')) (List.cons_ne_nil _ _)
      | blank hb =>
          simp only [List.cons_append, List.cons.injEq] at heq
          rw [← heq.1] at hb
          exact absurd hb (by decide)
      | comment hbody' hend' h' =>
          simp only [List.cons_append, List.append_assoc, List.cons.injEq, true_and] at heq
          -- a comment is the run of bytes up to the next line end
          obtain ⟨rfl, hbehind⟩ := run_unique (p := (· ≠ newline)) (by grind) (by grind) (by grind)
            (by grind) heq
          obtain ⟨rfl, rfl⟩ := ih h' hrest hbehind
          exact ⟨rfl, rfl⟩

/-- No token can be formed here. -/
def Stuck (rest : List UInt8) : Prop :=
  Settled rest ∧ ∀ w more kind, rest = w ++ more → Longest w more → ¬ Means w kind

theorem stuck_nil : Stuck [] := by
  constructor
  · intro b hb
    cases hb
  · intro w more kind h hlongest hmeans
    obtain ⟨b, bs, rfl, -⟩ := hlongest.1.starts
    cases h

theorem Means.of_digits {w : List UInt8} {kind : Token.Kind} (h : Means w kind) (hw : Digits w) :
    value w ≤ 2 ^ 63 := by
  obtain ⟨b, bs, rfl, hb⟩ := h.starts
  have hdigit := hw.2 b List.mem_cons_self
  have hletter := isLetter_of_isDigit b hdigit
  cases kind with
  | int n => exact h.2.1.trans_le h.2.2
  | keyword | ident => exact absurd hb (by simp [Starts, hletter])
  | punct => exact absurd hdigit (by simp [hb.1])

theorem Unformed.stuck {rest : List UInt8} {fault : SyntaxFault} (h : Unformed rest fault) :
    Stuck rest := by
  cases fault with
  | unexpectedCharacter c =>
      constructor
      · exact h.2.1
      · rintro w more kind rfl hlongest -
        exact h.2.2 w hlongest.1 (List.prefix_append w more)
  | literalOutOfRange digits =>
      obtain ⟨hdigits, hvalue, more, rfl, hlongest⟩ := h
      constructor
      · exact hlongest.settled
      · intro w more' kind heq hlongest' hmeans
        obtain ⟨rfl, rfl⟩ := hlongest.unique hlongest' heq
        exact Nat.not_lt.mpr (hmeans.of_digits hdigits) hvalue
  | expected | nestingTooDeep | tooManyOperators => exact absurd h id

theorem Unformed.ne_nil {rest : List UInt8} {fault : SyntaxFault} (h : Unformed rest fault) :
    rest ≠ [] := by
  rintro rfl
  cases fault with
  | unexpectedCharacter c =>
      have hnil : String.utf8EncodeChar c = [] := by simpa using h.1
      exact String.utf8EncodeChar_ne_nil hnil
  | literalOutOfRange digits =>
      obtain ⟨hdigits, -, more, heq, -⟩ := h
      exact hdigits.1 (List.append_eq_nil_iff.mp heq.symm).1
  | expected | nestingTooDeep | tooManyOperators => exact absurd h id

theorem Unformed.unique {rest : List UInt8} {fault fault' : SyntaxFault} (h : Unformed rest fault)
    (h' : Unformed rest fault') : fault = fault' := by
  cases fault with
  | unexpectedCharacter c =>
      cases fault' with
      | unexpectedCharacter c' => rw [first_unique h.1 h'.1]
      | literalOutOfRange digits =>
          obtain ⟨-, -, more, rfl, hlongest⟩ := h'
          exact absurd (List.prefix_append _ _) (h.2.2 _ hlongest.1)
      | expected | nestingTooDeep | tooManyOperators => exact absurd h' id
  | literalOutOfRange digits =>
      obtain ⟨-, -, more, rfl, hlongest⟩ := h
      cases fault' with
      | unexpectedCharacter c => exact absurd (List.prefix_append _ _) (h'.2.2 _ hlongest.1)
      | literalOutOfRange digits' =>
          obtain ⟨-, -, more', heq, hlongest'⟩ := h'
          rw [bytes_injective (hlongest.unique hlongest' heq).1]
      | expected | nestingTooDeep | tooManyOperators => exact absurd h' id
  | expected | nestingTooDeep | tooManyOperators => exact absurd h id

/-- No token is formed where a cut stops for good. -/
theorem Stuck.not_means {gap gap' rest w more : List UInt8} {kind : Token.Kind} (hrest : Stuck rest)
    (hgap : Trivia gap rest) (heq : gap ++ rest = gap' ++ (w ++ more)) (hgap' : Trivia gap' (w ++ more))
    (hlongest : Longest w more) : ¬ Means w kind := by
  obtain ⟨rfl, rfl⟩ := hgap.unique hgap' hrest.1 hlongest.settled heq
  exact hrest.2 w more kind rfl hlongest

/-- Two cuts of a text that both go on until no token can be formed are the same. -/
theorem Cut.unique {before text gap gap' rest rest' : List UInt8} {tokens tokens' : List Token}
    (h : Cut before text tokens (gap ++ rest)) (h' : Cut before text tokens' (gap' ++ rest'))
    (hgap : Trivia gap rest) (hgap' : Trivia gap' rest') (hrest : Stuck rest) (hrest' : Stuck rest') :
    tokens = tokens' ∧ gap = gap' ∧ rest = rest' := by
  induction tokens generalizing before text tokens' with
  | nil =>
      cases tokens' with
      | nil => exact ⟨rfl, hgap.unique hgap' hrest.1 hrest'.1 (h.trans h'.symm)⟩
      | cons token' tokens' =>
          obtain ⟨_, _, _, htext, htrivia, hlongest, hmeans, -⟩ := h'
          exact absurd hmeans (hrest.not_means hgap (h.trans htext) htrivia hlongest)
  | cons token tokens ih =>
      obtain ⟨front, w, more, htext, htrivia, hlongest, hmeans, hspan, h⟩ := h
      cases tokens' with
      | nil => exact absurd hmeans (hrest'.not_means hgap' (h'.trans htext) htrivia hlongest)
      | cons token' tokens' =>
          obtain ⟨front', w', more', htext', htrivia', hlongest', hmeans', hspan', h'⟩ := h'
          obtain ⟨rfl, hsame⟩ := htrivia.unique htrivia' hlongest.settled hlongest'.settled
            (htext.symm.trans htext')
          obtain ⟨rfl, rfl⟩ := hlongest.unique hlongest' hsame
          obtain ⟨rfl, hends⟩ := ih h h'
          have htoken : token = token' := by
            cases token
            cases token'
            rw [Token.mk.injEq]
            exact ⟨hmeans.unique hmeans', hspan.trans hspan'.symm⟩
          exact ⟨by rw [htoken], hends⟩

theorem Splits.unique {text : List UInt8} {stream stream' : TokenStream} (h : Splits text stream)
    (h' : Splits text stream') : stream = stream' := by
  obtain ⟨gap, hcut, hgap, hstop⟩ := h
  obtain ⟨gap', hcut', hgap', hstop'⟩ := h'
  rw [← List.append_nil gap] at hcut
  rw [← List.append_nil gap'] at hcut'
  have htokens := (hcut.unique hcut' hgap hgap' stuck_nil stuck_nil).1
  cases stream
  cases stream'
  rw [TokenStream.mk.injEq]
  exact ⟨htokens, hstop.trans hstop'.symm⟩

theorem Breaks.unique {text : List UInt8} {e e' : SyntaxError} (h : Breaks text e) (h' : Breaks text e') :
    e = e' := by
  obtain ⟨before, tokens, gap, rest, htext, hcut, hgap, hfault, hspan⟩ := h
  obtain ⟨before', tokens', gap', rest', htext', hcut', hgap', hfault', hspan'⟩ := h'
  obtain ⟨-, rfl, rfl⟩ := hcut.unique hcut' hgap hgap' hfault.stuck hfault'.stuck
  have hbefore : before = before' := List.append_cancel_right (htext.symm.trans htext')
  subst hbefore
  cases e
  cases e'
  rw [SyntaxError.mk.injEq]
  exact ⟨hspan.trans hspan'.symm, hfault.unique hfault'⟩

theorem Splits.not_breaks {text : List UInt8} {stream : TokenStream} {e : SyntaxError}
    (h : Splits text stream) : ¬ Breaks text e := by
  rintro ⟨before, tokens, gap, rest, -, hcut, hgap, hfault, -⟩
  obtain ⟨gap', hcut', hgap', -⟩ := h
  rw [← List.append_nil gap'] at hcut'
  obtain ⟨-, -, rfl⟩ := hcut.unique hcut' hgap hgap' hfault.stuck stuck_nil
  exact hfault.ne_nil rfl

end Lexical

end GotoLang
