import GotoLang.SyntaxError

/-!
# From text to tokens

Blanks, line ends and comments from `#` to the end of the line separate tokens. At every other
character the longest word, digit run or operator is taken. A digit run is bounded by `2 ^ 63`, one
above the largest signed word, so that the smallest one can be written with a minus sign.
-/
namespace GotoLang

namespace Lexer

def isBlank (c : Char) : Bool :=
  c = ' ' || c = '\t' || c = '\r' || c = '\n'

def isWordStart (c : Char) : Bool :=
  c.isAlpha || c = '_'

def isWordPart (c : Char) : Bool :=
  c.isAlphanum || c = '_'

/-- Drop blanks and comments; the flag tells whether we stand inside a comment. A line end closes
the comment and is itself blank. -/
def skip (comment : Bool) (pos : Span) : List Char → Span × List Char
  | [] => (pos, [])
  | c :: cs =>
    if comment then skip (c ≠ '\n') (pos.advance c) cs
    else if isBlank c then skip false (pos.advance c) cs
    else if c = '#' then skip true (pos.advance c) cs
    else (pos, c :: cs)

def digitsValue (digits : List Char) : Nat :=
  digits.foldl (fun n c => 10 * n + (c.toNat - '0'.toNat)) 0

def literalBound : Nat := 9223372036854775808

/-- A word is a reserved word only as a whole. -/
def wordKind (word : String) : Token.Kind :=
  match Keyword.ofText? word with
  | some keyword => .keyword keyword
  | none => .ident word

def operator? (c : Char) (next : Option Char) : Option (Punct × Nat) :=
  match c, next with
  | '=', some '=' => some (.equal, 1)
  | '!', some '=' => some (.notEqual, 1)
  | '<', some '=' => some (.lessEqual, 1)
  | '>', some '=' => some (.greaterEqual, 1)
  | '=', _ => some (.assign, 0)
  | '<', _ => some (.less, 0)
  | '>', _ => some (.greater, 0)
  | ':', _ => some (.colon, 0)
  | ';', _ => some (.semi, 0)
  | '+', _ => some (.plus, 0)
  | '-', _ => some (.minus, 0)
  | '*', _ => some (.star, 0)
  | '/', _ => some (.slash, 0)
  | '%', _ => some (.percent, 0)
  | '(', _ => some (.leftParen, 0)
  | ')', _ => some (.rightParen, 0)
  | _, _ => none

/-- The longest token that starts with `c`, and how many characters of `cs` belong to it. -/
def munch (c : Char) (cs : List Char) : Except SyntaxFault (Token.Kind × Nat) :=
  if c.isDigit then
    let more := cs.takeWhile Char.isDigit
    let value := digitsValue (c :: more)
    if value ≤ literalBound then .ok (.int value, more.length)
    else .error (.literalOutOfRange (String.ofList (c :: more)))
  else if isWordStart c then
    let more := cs.takeWhile isWordPart
    .ok (wordKind (String.ofList (c :: more)), more.length)
  else
    match operator? c cs.head? with
    | some (mark, more) => .ok (.punct mark, more)
    | none => .error (.unexpectedCharacter c)

theorem skip_length_le (comment : Bool) (pos : Span) (cs : List Char) :
    (skip comment pos cs).2.length ≤ cs.length := by
  induction cs generalizing comment pos with
  | nil => simp [skip]
  | cons c cs ih =>
    unfold skip
    split
    · exact Nat.le_succ_of_le (ih _ _)
    · split
      · exact Nat.le_succ_of_le (ih _ _)
      · split
        · exact Nat.le_succ_of_le (ih _ _)
        · simp

def scanFrom (pos : Span) (text : List Char) : Except SyntaxError TokenStream :=
  match _h : skip false pos text with
  | (stop, []) => .ok ⟨[], stop⟩
  | (here, c :: cs) =>
    match munch c cs with
    | .error fault => .error ⟨here, fault⟩
    | .ok (kind, more) =>
      match scanFrom (here.advanceBy (c :: cs.take more)) (cs.drop more) with
      | .error e => .error e
      | .ok rest => .ok { rest with tokens := ⟨kind, here⟩ :: rest.tokens }
termination_by text.length
decreasing_by
  have := skip_length_le false pos text
  simp only [_h, List.length_cons] at this
  simp only [List.length_drop]
  omega

end Lexer

/-- Split a text into tokens, or report the first place where no token can be formed. -/
def TokenStream.ofText (text : String) : Except SyntaxError TokenStream :=
  Lexer.scanFrom Span.start text.toList

end GotoLang
