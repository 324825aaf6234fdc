import GotoLang.Proofs.Parsing.Sound
import Mathlib.Order.Nat

/-!
# What is derived the parser accepts

The converse of soundness. A parser is given the tokens of a derivation and more behind them that do not
extend it. If it has depth and operators left, it yields the tree and leaves what is behind. Together with
soundness, and because derivations are unique, reading a sequence of tokens succeeds exactly on programs
within the limits, with the one tree that they have.
-/
namespace GotoLang
open Grammar

namespace Parser
variable {α β : Type}

/-- At some depth, with so many operators counted before, a parser reads some tokens, yields a value, counts so
many operators more and leaves the rest. -/
def Accepts (depth : Nat) (p : Parse α) (ts rest : List Token) (k : Nat) (a : α) (n : Nat) : Prop :=
  ∀ stop trace, ∃ trace', p ⟨ts ++ rest, stop, depth, k, trace⟩ =
    .ok a ⟨rest, stop, depth, k + n, trace'⟩

section
variable {depth : Nat} {ts rest : List Token} {k n : Nat} {a : α} {q : Parse α}

theorem accepts_pure : Accepts depth (pure a) [] rest k a 0 :=
  fun _ _ => ⟨_, rfl⟩

theorem Accepts.bind {p : Parse β} {f : β → Parse α} {more : List Token} {b : β} {m : Nat}
    (hp : Accepts depth p ts (more ++ rest) k b n) (hf : Accepts depth (f b) more rest (k + n) a m) :
    Accepts depth (p >>= f) (ts ++ more) rest k a (n + m) := by
  intro stop trace
  obtain ⟨trace', hp⟩ := hp stop trace
  obtain ⟨trace'', hf⟩ := hf stop trace'
  rw [List.append_assoc, ← Nat.add_assoc]
  exact ⟨trace'', bind_eq_ok.mpr ⟨b, _, hp, hf⟩⟩

/-- The last tokens are read by what follows, which counts no operators. -/
theorem Accepts.before {p : Parse β} {f : β → Parse α} {more : List Token} {b : β}
    (hp : Accepts depth p ts (more ++ rest) k b n) (hf : Accepts depth (f b) more rest (k + n) a 0) :
    Accepts depth (p >>= f) (ts ++ more) rest k a n :=
  hp.bind hf

/-- No more tokens are read. -/
theorem Accepts.andThen {p : Parse β} {f : β → Parse α} {b : β} {m : Nat}
    (hp : Accepts depth p ts rest k b n) (hf : Accepts depth (f b) [] rest (k + n) a m) :
    Accepts depth (p >>= f) ts rest k a (n + m) := by
  have h : Accepts depth (p >>= f) (ts ++ []) rest k a (n + m) := Accepts.bind hp hf
  rwa [List.append_nil] at h

theorem Accepts.andReturn {p : Parse β} {f : β → Parse α} {b : β}
    (hp : Accepts depth p ts rest k b n) (hf : Accepts depth (f b) [] rest (k + n) a 0) :
    Accepts depth (p >>= f) ts rest k a n :=
  hp.andThen hf

theorem Accepts.after_skip (h : Accepts depth q ts rest k a n) (token : Token) :
    Accepts depth (skip >>= fun _ => q) (token :: ts) rest k a n :=
  fun stop trace => h stop trace

theorem Accepts.after_reduce (h : Accepts depth q ts rest k a n) (parent child : String) :
    Accepts depth (reduce parent child >>= fun _ => q) ts rest k a n :=
  fun stop trace => h stop (trace.record ⟨parent, child⟩)

theorem Accepts.after_expect (h : Accepts depth q ts rest k a n) (kind : Token.Kind) (span : Span)
    (wanted : Expectation) :
    Accepts depth (expect kind wanted >>= fun _ => q) (⟨kind, span⟩ :: ts) rest k a n := by
  intro stop trace
  obtain ⟨trace', h⟩ := h stop trace
  refine ⟨trace', bind_eq_ok.mpr ⟨(), _, ?_, h⟩⟩
  rw [expect, peek_bind]
  exact congrFun (if_pos rfl) _

theorem Accepts.after_ident {f : String → Parse α} {name : String} (h : Accepts depth (f name) ts rest k a n)
    (span : Span) (wanted : Expectation) :
    Accepts depth (expectIdent wanted >>= f) (⟨.ident name, span⟩ :: ts) rest k a n :=
  fun stop trace => h stop trace

theorem Accepts.after_count (h : Accepts depth q ts rest (k + 1) a n) (hk : k < operatorLimit) (span : Span) :
    Accepts depth (countOperator span >>= fun _ => q) ts rest k a (n + 1) := by
  intro stop trace
  obtain ⟨trace', h⟩ := h stop trace
  refine ⟨trace', bind_eq_ok.mpr ⟨(), ⟨ts ++ rest, stop, depth, k + 1, trace⟩, ?_, ?_⟩⟩
  · exact congrFun (if_neg (Nat.not_lt.mpr hk) : (if k + 1 > operatorLimit then _ else _) = _) _
  · rw [h, Nat.add_assoc, Nat.add_comm 1 n]

/-- What is read between entering a level and leaving it is read one level deeper. -/
theorem Accepts.nested {p : Parse β} {f : β → Parse α} {more : List Token} {b : β} (hdepth : depth < nestingLimit)
    (hp : Accepts (depth + 1) p ts (more ++ rest) k b n) (hf : Accepts depth (f b) more rest (k + n) a 0)
    (span : Span) :
    Accepts depth (do
      enter span
      let b ← p
      leave
      f b) (ts ++ more) rest k a n := by
  intro stop trace
  obtain ⟨trace', hp⟩ := hp stop trace
  obtain ⟨trace'', hf⟩ := hf stop trace'
  rw [List.append_assoc]
  refine ⟨trace'', bind_eq_ok.mpr ⟨(), ⟨ts ++ (more ++ rest), stop, depth + 1, k, trace⟩, ?_, ?_⟩⟩
  · exact congrFun (if_neg (Nat.not_lt.mpr hdepth) : (if depth + 1 > nestingLimit then _ else _) = _) _
  · exact bind_eq_ok.mpr ⟨b, _, hp, bind_eq_ok.mpr ⟨(), _, rfl, hf⟩⟩

theorem Accepts.after_peek {f : Option Token → Parse α}
    (h : Accepts depth (f (ts ++ rest).head?) ts rest k a n) : Accepts depth (peek >>= f) ts rest k a n :=
  h

end

/-- A parser reads all that a form derives if it is not too deep. -/
def Complete (depth : Nat) (p : Parse Expr) (form : Form) (room : Nat) : Prop :=
  ∀ ts e d, Derives form ts e d → d ≤ room → ∀ rest k, form.Stops rest →
    k + e.operators ≤ operatorLimit → Accepts depth p ts rest k e e.operators

section
variable {operand : Parse Expr} {l : Level} {depth room : Nat}

theorem Accepts.after_operator {f : Option (BinaryOp × Span) → Parse Expr} {op : BinaryOp} {span : Span}
    {ts rest : List Token} {k n : Nat} {e : Expr} (hop : op.level = l)
    (h : Accepts depth (f (some (op, span))) (⟨op.sign, span⟩ :: ts) rest k e n) :
    Accepts depth (operator? (table l) >>= f) (⟨op.sign, span⟩ :: ts) rest k e n := by
  have hfound : table l op.sign = some op := table_eq_some.mpr ⟨hop, rfl⟩
  intro stop trace
  obtain ⟨trace', h⟩ := h stop trace
  refine ⟨trace', ?_⟩
  show f ((table l op.sign).map fun op => (op, span)) _ = _
  rw [hfound]
  exact h

theorem Accepts.without_operator {f : Option (BinaryOp × Span) → Parse Expr} {rest : List Token}
    {k n : Nat} {lhs e : Expr} (hs : (Form.tail l lhs).Stops rest) (h : Accepts depth (f none) [] rest k e n) :
    Accepts depth (operator? (table l) >>= f) [] rest k e n := by
  have hnone : (rest.head?.bind fun token => (table l token.kind).map fun op => (op, token.span)) = none := by
    cases rest with
    | nil => rfl
    | cons token rest =>
        obtain ⟨kind, span⟩ := token
        cases hk : table l kind with
        | none => simp [hk]
        | some op =>
            obtain ⟨hlevel, rfl⟩ := table_eq_some.mp hk
            exact (hs.absurd hlevel rfl).elim
  intro stop trace
  obtain ⟨trace', h⟩ := h stop trace
  refine ⟨trace', ?_⟩
  show f (rest.head?.bind fun token => (table l token.kind).map fun op => (op, token.span)) _ = _
  rw [hnone]
  exact h

/-- The operators of a level are read one after the other. Each is counted, so the bound on their number
is never reached before the limit is. -/
theorem accepts_chain (hoperand : Complete depth operand l.operand room) {lhs e : Expr} {ts : List Token}
    {d : Nat} (h : Derives (.tail l lhs) ts e d) (hd : d ≤ room) :
    ∃ n, e.operators = lhs.operators + n ∧ ∀ bound rest k, (Form.tail l lhs).Stops rest →
      k + n ≤ operatorLimit → (l = .cmp → bound = 1) → (l ≠ .cmp → operatorLimit < bound + k) →
      Accepts depth (chain (table l) operand bound lhs) ts rest k e n := by
  generalize hform : Form.tail l lhs = form at h
  induction h generalizing lhs with
  | done =>
      cases hform
      refine ⟨0, rfl, fun bound rest k hs hk hcmp hmany => ?_⟩
      obtain ⟨bound, rfl⟩ : ∃ less, bound = less + 1 := by
        refine ⟨bound - 1, ?_⟩
        by_cases hl : l = .cmp
        · have := hcmp hl
          omega
        · have := hmany hl
          omega
      exact accepts_pure.without_operator hs
  | @more _ op _ rhs e span ts more d d' hop hne hrhs htail _ ih =>
      cases hform
      obtain ⟨n, hops, hrest⟩ := ih ((Nat.le_max_right _ _).trans hd) rfl
      refine ⟨rhs.operators + (n + 1), ?_, fun bound rest k hs hk _ hmany => ?_⟩
      · rw [hops, Expr.operators]
        omega
      have hmany := hmany hne
      obtain ⟨bound, rfl⟩ : ∃ less, bound = less + 1 := ⟨bound - 1, by omega⟩
      refine .after_operator hop (.after_skip ?_ _)
      refine (hoperand ts rhs d hrhs ((Nat.le_max_left _ _).trans hd) _ k (htail.stops_operand hs)
        (by omega)).bind ?_
      refine .after_count ?_ (by omega) span
      exact hrest bound rest _ hs (by omega) (fun hl => absurd hl hne) (fun _ => by omega)
  | @compare op _ rhs span ts d hop hrhs =>
      cases hform
      refine ⟨rhs.operators + 1, ?_, fun bound rest k hs hk hcmp _ => ?_⟩
      · rw [Expr.operators]
        omega
      obtain rfl := hcmp rfl
      refine .after_operator hop (.after_skip ?_ _)
      refine (hoperand ts rhs d hrhs hd _ k hs.operand (by omega)).andThen ?_
      exact .after_count accepts_pure (by omega) span
  | _ => cases hform

theorem complete_level (hoperand : Complete depth operand l.operand room) {bound : Nat}
    (hcmp : l = .cmp → bound = 1) (hmany : l ≠ .cmp → operatorLimit < bound) (parent child : String) :
    Complete depth (do
      let lhs ← operand
      let e ← chain (table l) operand bound lhs
      reduce parent child
      return e) (.level l) room := by
  intro ts e d h hd rest k hs hk
  cases h with
  | @level _ ts more lhs _ d d' hlhs htail =>
      obtain ⟨n, hops, hchain⟩ := accepts_chain hoperand htail ((Nat.le_max_right _ _).trans hd)
      rw [hops] at hk ⊢
      refine (hoperand ts lhs d hlhs ((Nat.le_max_left _ _).trans hd) _ k (htail.stops_operand hs)
        (by omega)).bind ?_
      refine (hchain bound rest (k + lhs.operators) hs (by omega) hcmp fun hl => ?_).andReturn ?_
      · have := hmany hl
        omega
      · exact accepts_pure.after_reduce parent child

end

theorem complete_expression {unary : Parse Expr} {depth room : Nat} (h : Complete depth unary .unary room) :
    Complete depth (expression unary) (.level .or) room := by
  have hbound : ∀ {l : Level}, l ≠ .cmp → operatorLimit < operatorLimit + 1 := fun _ => Nat.lt_succ_self _
  have hno : ∀ {l : Level}, l ≠ .cmp → l = .cmp → operatorLimit + 1 = 1 := fun hl h => absurd h hl
  have hterm := complete_level (l := .term) h (hno (by decide)) hbound "term" "unary"
  have hsum := complete_level (l := .sum) hterm (hno (by decide)) hbound "sum" "term"
  have hcmp := complete_level (l := .cmp) hsum (fun _ => rfl) (fun hl => absurd rfl hl) "cmp" "sum"
  have hand := complete_level (l := .and) hcmp (hno (by decide)) hbound "and" "cmp"
  have hor := complete_level (l := .or) hand (hno (by decide)) hbound "or" "and"
  intro ts e d he hd rest k hs hk
  exact (hor ts e d he hd rest k hs hk).andReturn (accepts_pure.after_reduce "expr" "or")

section
variable {deeper : Parse Expr} {depth room : Nat}

/-- Where depth is left, what is nested one level deeper is read. -/
def Reaches (deeper : Parse Expr) (depth room : Nat) : Prop :=
  ∀ less, room = less + 1 → depth < nestingLimit ∧ Complete (depth + 1) deeper .unary less

theorem accepts_applied (h : Reaches deeper depth room) {op : UnaryOp} {operand : Expr} {span : Span}
    {ts rest : List Token} {d k : Nat} (ho : Derives .unary ts operand d) (hd : d < room)
    (hk : k + (operand.operators + 1) ≤ operatorLimit) :
    Accepts depth (applied deeper op span) ts rest k (.unary op operand span) (operand.operators + 1) := by
  obtain ⟨hdepth, hp⟩ := h (room - 1) (by omega)
  refine .after_count ?_ (by omega) span
  have hoperand := hp ts operand d ho (by omega) rest (k + 1) trivial (by omega)
  let back := fun operand => reduce "unary" "unary" >>= fun _ => pure (Expr.unary op operand span)
  rw [← List.append_nil ts]
  exact Accepts.nested (f := back) hdepth hoperand (accepts_pure.after_reduce "unary" "unary") span

theorem complete_primary (h : Reaches deeper depth room) : Complete depth (primary deeper) .primary room := by
  intro ts e d he hd rest k _ hk
  cases he with
  | @int value word span hword =>
      have hsmall : ¬ value > largestLiteral := by
        have := word.toInt_lt
        rw [largestLiteral]
        omega
      obtain rfl : Int64.ofNat value = word :=
        Int64.toInt_inj.mp ((toInt_ofNat hsmall).trans hword.symm)
      refine .after_peek ?_
      dsimp only [List.cons_append, List.head?_cons]
      rw [if_neg hsmall]
      exact .after_skip (accepts_pure.after_reduce "primary" "INT") _
  | trueWord => exact .after_peek (.after_skip (accepts_pure.after_reduce "primary" "BOOL") _)
  | falseWord => exact .after_peek (.after_skip (accepts_pure.after_reduce "primary" "BOOL") _)
  | var => exact .after_peek (.after_skip (accepts_pure.after_reduce "primary" "IDENT") _)
  | @paren ts e d opening closing he =>
      obtain ⟨hdepth, hp⟩ := h (room - 1) (by omega)
      refine .after_peek (.after_skip ?_ _)
      have hinner : Accepts (depth + 1) (expression deeper) ts ([⟨.punct .rightParen, closing⟩] ++ rest) k e
          e.operators := complete_expression hp ts e d he (by omega) _ k (stops_closing (.inl rfl)) hk
      exact .nested hdepth hinner (.after_expect (accepts_pure.after_reduce "primary" "expr") _ closing _) opening

theorem complete_unaryWith (h : Reaches deeper depth room) : Complete depth (unaryWith deeper) .unary room := by
  intro ts e d he hd rest k _ hk
  cases he with
  | @apply op operand span ts d hnot ho =>
      have happlied : Accepts depth (applied deeper op span) ts rest k (.unary op operand span)
          (operand.operators + 1) := accepts_applied h ho hd hk
      cases op with
      | not => exact .after_peek (.after_skip happlied _)
      | neg =>
          refine .after_peek (.after_skip (.after_peek ?_) _)
          cases ts with
          | nil => exact absurd rfl (ho.ne_nil fun l lhs hform => by cases hform)
          | cons token more =>
              obtain ⟨kind, digits⟩ := token
              cases kind with
              | int value => exact absurd trivial (hnot rfl)
              | ident _ => exact happlied
              | keyword _ => exact happlied
              | punct _ => exact happlied
  | @negative value word span digits hword =>
      have hsmall : value ≤ 9223372036854775808 := by
        have := word.le_toInt
        omega
      obtain rfl : Int64.ofInt (-value) = word :=
        Int64.toInt_inj.mp ((toInt_ofInt_neg hsmall).trans hword.symm)
      refine .after_peek (.after_skip (.after_peek (.after_skip ?_ ⟨.int value, digits⟩)) _)
      exact (accepts_pure.after_reduce "unary" "primary").after_reduce "primary" "INT"
  | primary hp =>
      have hprimary := complete_primary h ts e d hp hd rest k trivial hk
      have hall : Accepts depth (primary deeper >>= fun e => reduce "unary" "primary" >>= fun _ => pure e)
          ts rest k e e.operators := hprimary.andReturn (accepts_pure.after_reduce "unary" "primary")
      -- A primary expression starts with neither of the two signs.
      cases hp <;> exact .after_peek hall

end

theorem complete_unary {depth room : Nat} (h : depth + room = nestingLimit) :
    Complete depth (unary room) .unary room := by
  induction room generalizing depth with
  | zero =>
      refine complete_unaryWith fun less hless => ?_
      cases hless
  | succ room ih =>
      refine complete_unaryWith fun less hless => ?_
      cases hless
      exact ⟨by omega, ih (by omega)⟩

theorem complete_expr : Complete 0 expr (.level .or) nestingLimit :=
  complete_expression (complete_unary (Nat.zero_add _))

theorem accepts_closed {ts : List Token} {value : Expr} (h : Moderate ts value) (f : Expr → Stmt)
    (kind : String) (semi : Span) (rest : List Token) :
    Accepts 0 (do
      let value ← expr
      semicolon
      reduce "stmt" kind
      return f value) (ts ++ [⟨.punct .semi, semi⟩]) rest 0 (f value) value.operators := by
  obtain ⟨d, hd, he, hops⟩ := h
  have hvalue : Accepts 0 expr ts ([⟨.punct .semi, semi⟩] ++ rest) 0 value value.operators :=
    complete_expr ts value d he hd _ 0 (stops_closing (.inr (.inl rfl))) (by omega)
  exact hvalue.before (.after_expect (accepts_pure.after_reduce "stmt" kind) _ semi _)

theorem accepts_destination {k : Nat} (f : String → Stmt) (kind name : String) (ident semi : Span)
    (rest : List Token) :
    Accepts 0 (do
      let label ← expectIdent .labelName
      semicolon
      reduce "stmt" kind
      return f label) [⟨.ident name, ident⟩, ⟨.punct .semi, semi⟩] rest k (f name) 0 :=
  .after_ident (.after_expect (accepts_pure.after_reduce "stmt" kind) _ semi _) ident _

/-- The first tokens of a statement tell how it goes on, with no operator counted. -/
theorem Accepts.afresh {p : Parse Stmt} {ts rest : List Token} {stmt : Stmt} {n : Nat}
    (h : Accepts 0 p ts rest 0 stmt n) (stop : Span) (operators : Nat) (trace : Trace)
    (hrun : statement ⟨ts ++ rest, stop, 0, operators, trace⟩ = p ⟨ts ++ rest, stop, 0, 0, trace⟩) :
    ∃ operators' trace', statement ⟨ts ++ rest, stop, 0, operators, trace⟩ =
      .ok stmt ⟨rest, stop, 0, operators', trace'⟩ := by
  obtain ⟨trace', h⟩ := h stop trace
  exact ⟨0 + n, trace', hrun.trans h⟩

theorem statement_complete {ts : List Token} {stmt : Stmt} (h : Statement Moderate ts stmt)
    (rest : List Token) (stop : Span) (operators : Nat) (trace : Trace) :
    ∃ operators' trace', statement ⟨ts ++ rest, stop, 0, operators, trace⟩ =
      .ok stmt ⟨rest, stop, 0, operators', trace'⟩ := by
  cases h with
  | label => exact ⟨_, _, rfl⟩
  | @declare name value ts span ident sign semi he =>
      have hvalue := accepts_closed he (.declare name · span) "let" semi rest
      have hsign := hvalue.after_expect (.punct .assign) sign .assign
      -- The name is there, so reading it only passes over it.
      exact ((hsign.after_skip ⟨.ident name, ident⟩).after_skip _).afresh _ _ _ rfl
  | @assign name value ts span sign semi he =>
      have hvalue := accepts_closed he (.assign name · span) "assign" semi rest
      exact ((hvalue.after_expect (.punct .assign) sign .assignOrColon).after_skip _).afresh _ _ _ rfl
  | @print value ts span semi he =>
      have hvalue := accepts_closed he (.print · span) "print" semi rest
      exact (hvalue.after_skip _).afresh _ _ _ rfl
  | @goto name span ident semi =>
      have hname := accepts_destination (k := 0) (.goto · span) "goto" name ident semi rest
      exact (hname.after_skip _).afresh _ _ _ rfl
  | @ifGoto name cond ts span goto ident semi he =>
      obtain ⟨d, hd, he, hops⟩ := he
      have hcond : Accepts 0 expr ts ([⟨.keyword .gotoWord, goto⟩, ⟨.ident name, ident⟩,
          ⟨.punct .semi, semi⟩] ++ rest) 0 cond cond.operators :=
        complete_expr ts cond d he hd _ 0 (stops_closing (.inr (.inr rfl))) (by omega)
      have hname := accepts_destination (k := 0 + cond.operators) (.ifGoto cond · span) "if" name ident semi rest
      have hgoto := hname.after_expect (.keyword .gotoWord) goto .gotoWord
      exact ((hcond.before hgoto).after_skip _).afresh _ _ _ rfl
  | @exit value ts span semi he =>
      have hvalue := accepts_closed he (.exit · span) "exit" semi rest
      exact (hvalue.after_skip _).afresh _ _ _ rfl

theorem statements_complete {ts : List Token} {stmts : List Stmt} (h : Statements Moderate ts stmts)
    {bound : Nat} (hbound : ts.length ≤ bound) (stop : Span) (operators : Nat)
    (trace : Trace) :
    ∃ c, statements bound ⟨ts, stop, 0, operators, trace⟩ = .ok stmts c := by
  induction h generalizing bound operators trace with
  | nil => cases bound <;> exact ⟨_, rfl⟩
  | @cons ts more stmt stmts hstmt _ ih =>
      have hpos := List.length_pos_iff.mpr hstmt.ne_nil
      rw [List.length_append] at hbound
      obtain ⟨bound, rfl⟩ : ∃ less, bound = less + 1 := ⟨bound - 1, by omega⟩
      obtain ⟨operators', trace', h₁⟩ := statement_complete hstmt more stop operators trace
      have hless : more.length ≤ bound := by omega
      obtain ⟨c, h₂⟩ := ih hless operators' (trace'.record ⟨"program", "stmt"⟩)
      refine ⟨c, ?_⟩
      have hsome : ((ts ++ more).head?).isNone = false := by
        cases ts with
        | nil => exact absurd rfl hstmt.ne_nil
        | cons token ts => rfl
      rw [statements, peek_bind]
      simp only [hsome]
      exact bind_eq_ok.mpr ⟨stmt, _, h₁, bind_eq_ok.mpr ⟨(), _, rfl,
        bind_eq_ok.mpr ⟨stmts, c, h₂, rfl⟩⟩⟩

end Parser

namespace Reading

theorem ofTokens_ast {stream : TokenStream} {ast : Ast} : (ofTokens stream).ast = .ok ast ↔
    (∃ c, Parser.statements stream.tokens.length ⟨stream.tokens, stream.stop, 0, 0, { graph := .closed true }⟩ =
      .ok ast.stmts c) ∧ ast.stop = stream.stop := by
  rw [ofTokens]
  constructor
  · intro h
    split at h
    · next stmts c hrun =>
        cases h
        exact ⟨⟨c, hrun⟩, rfl⟩
    · cases h
  · rintro ⟨⟨c, hrun⟩, hstop⟩
    rw [hrun, ← hstop]

/-- Reading succeeds exactly on the programs of the grammar within the limits, which count afresh in every
statement. The tokens have no other tree, not even one beyond the limits. -/
theorem ofTokens_follows_grammar (stream : TokenStream)
    (hrange : ∀ token ∈ stream.tokens, token.InRange) (ast : Ast) :
    ((ofTokens stream).ast = .ok ast ↔
      Statements Moderate stream.tokens ast.stmts ∧ ast.stop = stream.stop) ∧
    ((ofTokens stream).ast = .ok ast →
      ∀ stmts, Statements Expression stream.tokens stmts → stmts = ast.stmts) := by
  have hsound : (ofTokens stream).ast = .ok ast → Statements Moderate stream.tokens ast.stmts := by
    intro h
    obtain ⟨⟨c, hrun⟩, -⟩ := ofTokens_ast.mp h
    exact Parser.statements_sound hrun rfl (Nat.le_refl _) hrange
  refine ⟨⟨fun h => ⟨hsound h, (ofTokens_ast.mp h).2⟩, ?_⟩, ?_⟩
  · rintro ⟨h, hstop⟩
    exact ofTokens_ast.mpr ⟨Parser.statements_complete h (Nat.le_refl _) stream.stop 0 _, hstop⟩
  · intro h stmts hstmts
    exact hstmts.unique ((hsound h).mono Moderate.expression)

end Reading

/-- The tokens of `print -9223372036854775808 - x - 1;`. -/
def TokenStream.difference : TokenStream where
  tokens := [⟨.keyword .printWord, ⟨1, 1⟩⟩, ⟨.punct .minus, ⟨1, 7⟩⟩,
    ⟨.int 9223372036854775808, ⟨1, 8⟩⟩, ⟨.punct .minus, ⟨1, 28⟩⟩, ⟨.ident "x", ⟨1, 30⟩⟩,
    ⟨.punct .minus, ⟨1, 32⟩⟩, ⟨.int 1, ⟨1, 34⟩⟩, ⟨.punct .semi, ⟨1, 35⟩⟩]
  stop := ⟨1, 36⟩

def Ast.difference : Ast where
  stmts :=
    let least := Expr.int (-9223372036854775808) ⟨1, 7⟩
    let first := Expr.binary (.arith .sub) least (.var "x" ⟨1, 30⟩) ⟨1, 28⟩
    [.print (.binary (.arith .sub) first (.int 1 ⟨1, 34⟩) ⟨1, 32⟩) ⟨1, 1⟩]
  stop := ⟨1, 36⟩

theorem Reading.ofTokens_follows_grammar_difference :
    (∀ token ∈ TokenStream.difference.tokens, token.InRange) ∧
    Statements Moderate TokenStream.difference.tokens Ast.difference.stmts ∧
    ∀ stmts, Statements Expression TokenStream.difference.tokens stmts →
      stmts = Ast.difference.stmts := by
  have hrange : ∀ token ∈ TokenStream.difference.tokens, token.InRange := by
    simp [TokenStream.difference, Token.InRange]
  have hread : (ofTokens TokenStream.difference).ast = .ok Ast.difference := by decide +kernel
  obtain ⟨hiff, hunique⟩ := ofTokens_follows_grammar TokenStream.difference hrange Ast.difference
  exact ⟨hrange, (hiff.mp hread).1, hunique hread⟩

end GotoLang
