import GotoLang.Proofs.Lowering.Code
import GotoLang.Proofs.Parsing.Sound

/-!
# Trees are no larger than texts

Every operation of a lowered program goes back to a token of its own, and every token to a character.
So a text has at least as many bytes as its program has operations, apart from the epilogue.
-/
namespace GotoLang

namespace Grammar

/-- The operations of the tree on the left, which a tail extends, are paid for by other tokens. -/
def Form.size : Form → Nat
  | .tail _ lhs => lhs.size
  | .level _ | .unary | .primary => 0

theorem Level.size_operand (l : Level) : l.operand.size = 0 := by
  cases l <;> rfl

theorem Derives.size_le {form : Form} {ts : List Token} {e : Expr} {d : Nat}
    (h : Derives form ts e d) : e.size ≤ form.size + ts.length := by
  induction h with
  | @level l _ _ _ _ _ _ _ _ ihoperand ihtail =>
      rw [l.size_operand] at ihoperand
      simp only [Form.size, List.length_append] at ihtail ⊢
      omega
  | done => exact Nat.le_refl _
  | @more l _ _ _ _ _ _ _ _ _ _ _ _ _ ihoperand ihtail =>
      rw [l.size_operand] at ihoperand
      simp only [Form.size, Expr.size, List.length_cons, List.length_append] at ihtail ⊢
      omega
  | compare _ _ ih =>
      simp only [Form.size, Expr.size, List.length_cons] at ih ⊢
      omega
  | apply _ _ ih =>
      simp only [Form.size, Expr.size, List.length_cons] at ih ⊢
      omega
  | negative => exact Nat.le_succ 1
  | primary _ ih => exact ih
  | int => exact Nat.le_refl 1
  | trueWord => exact Nat.le_refl 1
  | falseWord => exact Nat.le_refl 1
  | var => exact Nat.le_refl 1
  | paren _ ih =>
      simp only [Form.size, List.length_cons, List.length_append] at ih ⊢
      omega

theorem Expression.size_le {ts : List Token} {e : Expr} (h : Expression ts e) : e.size ≤ ts.length := by
  obtain ⟨d, h⟩ := h
  exact h.size_le.trans (Nat.zero_add _).le

theorem Statement.size_le {ts : List Token} {stmt : Stmt} (h : Statement Expression ts stmt) :
    stmt.size ≤ ts.length := by
  cases h with
  | label => exact Nat.zero_le _
  | goto => exact Nat.le_add_left 1 2
  | declare he | assign he | print he | ifGoto he | exit he =>
      have hvalue := he.size_le
      simp only [Stmt.size, List.length_cons, List.length_append]
      omega

theorem Statements.size_le {ts : List Token} {stmts : List Stmt} (h : Statements Expression ts stmts) :
    Source.size stmts ≤ ts.length := by
  induction h with
  | nil => exact Nat.le_refl 0
  | cons hs _ ih =>
      have hstmt := hs.size_le
      rw [Source.size, List.length_append]
      omega

end Grammar

theorem Lexer.length_scanFrom {pos : Span} {text : List Char} {stream : TokenStream}
    (h : scanFrom pos text = .ok stream) : stream.tokens.length ≤ text.length := by
  fun_induction scanFrom pos text generalizing stream with
  | case1 pos text stop hskip =>
      cases h
      exact Nat.zero_le _
  | case2 => cases h
  | case3 => cases h
  | case4 pos text here c cs hskip kind more hmunch rest hrest ih =>
      cases h
      have hlen := skip_length_le false pos text
      have hih := ih hrest
      rw [hskip, List.length_cons] at hlen
      rw [List.length_drop] at hih
      rw [List.length_cons]
      omega

theorem Lexer.inRange_munch {c : Char} {cs : List Char} {kind : Token.Kind} {more : Nat}
    (h : munch c cs = .ok (kind, more)) (span : Span) : (⟨kind, span⟩ : Token).InRange := by
  rintro value rfl
  rw [munch] at h
  split at h
  · dsimp only at h
    split at h
    · next hvalue =>
        cases h
        exact hvalue
    · cases h
  · split at h
    · have hword : wordKind (String.ofList (c :: cs.takeWhile isWordPart)) = .int value :=
        (Prod.mk.inj (Except.ok.inj h)).1
      rw [wordKind] at hword
      split at hword <;> cases hword
    · split at h <;> cases h

theorem Lexer.inRange_scanFrom {pos : Span} {text : List Char} {stream : TokenStream}
    (h : scanFrom pos text = .ok stream) : ∀ token ∈ stream.tokens, token.InRange := by
  fun_induction scanFrom pos text generalizing stream with
  | case1 pos text stop hskip =>
      cases h
      exact fun _ hmem => absurd hmem List.not_mem_nil
  | case2 => cases h
  | case3 => cases h
  | case4 pos text here c cs hskip kind more hmunch rest hrest ih =>
      cases h
      exact List.forall_mem_cons.mpr ⟨inRange_munch hmunch here, ih hrest⟩

/-- Every character takes a byte. -/
theorem Lexer.length_toList_le (text : String) : text.toList.length ≤ text.utf8ByteSize := by
  have hencoded : ∀ cs : List Char, cs.length ≤ (cs.flatMap String.utf8EncodeChar).length := by
    intro cs
    induction cs with
    | nil => exact Nat.le_refl 0
    | cons c cs ih =>
        have hpos := c.utf8Size_pos
        rw [List.flatMap_cons, List.length_append, String.length_utf8EncodeChar, List.length_cons]
        omega
  have hsize : text.utf8ByteSize = (text.toList.flatMap String.utf8EncodeChar).length := by
    rw [String.utf8ByteSize, ← List.size_toByteArray, ← List.utf8Encode, ← String.toByteArray_ofList,
      String.ofList_toList]
  rw [hsize]
  exact hencoded text.toList

/-- The tree of a text has no more operations than the text has bytes. -/
theorem Reading.size_le {text : String} {ast : Ast} (h : (ofText text).ast = .ok ast) :
    Source.size ast.stmts ≤ text.utf8ByteSize := by
  rw [ofText] at h
  split at h
  · next stream hstream =>
      have htokens := Lexer.length_scanFrom hstream
      rw [ofTokens] at h
      split at h
      · next stmts cursor hstmts =>
          cases h
          have hderived := Parser.statements_sound hstmts rfl (Nat.le_refl _)
            (Lexer.inRange_scanFrom hstream)
          have hsize := (hderived.mono Grammar.Moderate.expression).size_le
          exact hsize.trans (htokens.trans (Lexer.length_toList_le text))
      · cases h
  · cases h

end GotoLang
