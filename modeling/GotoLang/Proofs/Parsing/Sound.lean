import GotoLang.Ast.Parser
import GotoLang.Proofs.Faults
import GotoLang.Proofs.Grammar

/-!
# What the parser accepts is derived

A parser that yields a value has passed over some tokens and counted some operators, and is as deep as before.
The rules below follow a parser step by step and collect the tokens; at its end the tokens are those of a
derivation. The depth left to the parser bounds the depth of the derivation, and the operators are those of the
tree.
-/
namespace GotoLang
open Grammar

/-- No literal is larger than the magnitude of the least word. -/
def Token.InRange (token : Token) : Prop :=
  ∀ value, token.kind = .int value → value ≤ 9223372036854775808

namespace Parser
variable {α β : Type}

theorem peek_bind (f : Option Token → Parse α) (c : Cursor) :
    (peek >>= f) c = f c.tokens.head? c := rfl

/-- From one cursor to the other some tokens were read and so many operators counted, and every level that was
entered was left. -/
structure Cursor.Advances (c c' : Cursor) (ts : List Token) (n : Nat) : Prop where
  tokens : c.tokens = ts ++ c'.tokens
  operators : c'.operators = c.operators + n
  limit : c.operators ≤ operatorLimit → c'.operators ≤ operatorLimit
  balanced : c'.depth = c.depth

theorem Cursor.Advances.trans {c c' c'' : Cursor} {ts more : List Token} {n m : Nat}
    (h : c.Advances c' ts n) (k : c'.Advances c'' more m) : c.Advances c'' (ts ++ more) (n + m) := by
  refine ⟨?_, ?_, fun hc => k.limit (h.limit hc), k.balanced.trans h.balanced⟩
  · rw [h.tokens, k.tokens, List.append_assoc]
  · rw [k.operators, h.operators, Nat.add_assoc]

/-- What a parser yields at some depth stands in a relation to the tokens it has read and the operators it has
counted. -/
def Yields (depth : Nat) (p : Parse α) (R : List Token → α → Nat → Prop) : Prop :=
  ∀ c a c', c.depth = depth → p c = .ok a c' → (∀ token ∈ c.tokens, token.InRange) →
    ∃ ts n, c.Advances c' ts n ∧ R ts a n

section
variable {depth : Nat} {R : List Token → α → Nat → Prop}

theorem yields_pure {a : α} (h : R [] a 0) : Yields depth (pure a) R := by
  intro c b c' _ hb _
  cases hb
  exact ⟨[], 0, ⟨rfl, rfl, id, rfl⟩, h⟩

/-- What is done with a value continues with what is known about it. -/
theorem Yields.bind {p : Parse β} {q : β → Parse α} {P : List Token → β → Nat → Prop}
    (hp : Yields depth p P)
    (hq : ∀ b ts n, P ts b n → Yields depth (q b) fun more a m => R (ts ++ more) a (n + m)) :
    Yields depth (p >>= q) R := by
  intro c a c'' hdepth h hrange
  obtain ⟨b, c', hb, ha⟩ := bind_eq_ok.mp h
  obtain ⟨ts, n, hadv, hP⟩ := hp c b c' hdepth hb hrange
  have hrange' : ∀ token ∈ c'.tokens, token.InRange := by
    intro token hmem
    exact hrange token (hadv.tokens ▸ List.mem_append_right ts hmem)
  obtain ⟨more, m, hadv', hR⟩ := hq b ts n hP c' a c'' (hadv.balanced.trans hdepth) ha hrange'
  exact ⟨ts ++ more, n + m, hadv.trans hadv', hR⟩

theorem Yields.mono {p : Parse α} {P : List Token → α → Nat → Prop} (hp : Yields depth p P)
    (h : ∀ ts a n, P ts a n → R ts a n) : Yields depth p R := by
  intro c a c' hdepth ha hrange
  obtain ⟨ts, n, hadv, hP⟩ := hp c a c' hdepth ha hrange
  exact ⟨ts, n, hadv, h ts a n hP⟩

end

/-- The same where the next token is known. -/
def YieldsAt (depth : Nat) (next : Option Token) (p : Parse α) (R : List Token → α → Nat → Prop) : Prop :=
  ∀ c a c', c.depth = depth → c.tokens.head? = next → p c = .ok a c' → (∀ token ∈ c.tokens, token.InRange) →
    ∃ ts n, c.Advances c' ts n ∧ R ts a n

/-- The same where all tokens are known. -/
def YieldsOn (depth : Nat) (tokens : List Token) (p : Parse α) (R : List Token → α → Nat → Prop) : Prop :=
  ∀ c a c', c.depth = depth → c.tokens = tokens → p c = .ok a c' → (∀ token ∈ c.tokens, token.InRange) →
    ∃ ts n, c.Advances c' ts n ∧ R ts a n

section
variable {depth : Nat} {R : List Token → α → Nat → Prop} {next : Option Token} {p : Parse α}

theorem Yields.at (h : Yields depth p R) (next : Option Token) : YieldsAt depth next p R :=
  fun c a c' hdepth _ => h c a c' hdepth

theorem YieldsAt.on {tokens : List Token} (h : YieldsAt depth tokens.head? p R) : YieldsOn depth tokens p R :=
  fun c a c' hdepth ht => h c a c' hdepth (by rw [ht])

/-- If any tokens are read, the first of them is the one that is known. -/
theorem Yields.at_head {P : List Token → α → Nat → Prop} (h : Yields depth p P)
    (hR : ∀ ts a n, P ts a n → (∀ token more, ts = token :: more → next = some token) → R ts a n) :
    YieldsAt depth next p R := by
  intro c a c' hdepth hnext hp hrange
  obtain ⟨ts, n, hadv, hP⟩ := h c a c' hdepth hp hrange
  refine ⟨ts, n, hadv, hR ts a n hP ?_⟩
  rintro token more rfl
  rw [← hnext, hadv.tokens]
  rfl

theorem yields_peek {f : Option Token → Parse α} (h : ∀ next, YieldsAt depth next (f next) R) :
    Yields depth (peek >>= f) R :=
  fun c a c' hdepth => h c.tokens.head? c a c' hdepth rfl

theorem advances_skip {c c' : Cursor} {token : Token} {u : Unit} (ht : c.tokens.head? = some token)
    (h : skip c = .ok u c') : c.Advances c' [token] 0 := by
  cases h
  refine ⟨?_, rfl, id, rfl⟩
  obtain ⟨rest, hrest⟩ := List.head?_eq_some_iff.mp ht
  simp [hrest]

/-- A token that was looked at and passed over is read. -/
theorem yieldsAt_skip {token : Token}
    (h : token.InRange → Yields depth p fun ts a n => R (token :: ts) a n) :
    YieldsAt depth (some token) (skip >>= fun _ => p) R := by
  intro c a c'' hdepth ht hp hrange
  obtain ⟨_, c', hskip, hp⟩ := bind_eq_ok.mp hp
  have hadv := advances_skip ht hskip
  rw [hadv.tokens] at hrange
  obtain ⟨ts, n, hadv', hR⟩ := h (hrange token List.mem_cons_self) c' a c''
    (hadv.balanced.trans hdepth) hp
    fun token hmem => hrange token (List.mem_cons_of_mem _ hmem)
  have hboth := hadv.trans hadv'
  rw [Nat.zero_add] at hboth
  exact ⟨token :: ts, n, hboth, hR⟩

theorem yieldsOn_skip {token : Token} {more : List Token}
    (h : token.InRange → Yields depth p fun ts a n => R (token :: ts) a n) :
    YieldsOn depth (token :: more) (skip >>= fun _ => p) R :=
  fun c a c' hdepth ht => yieldsAt_skip h c a c' hdepth (by rw [ht]; rfl)

theorem yieldsAt_unexpected (wanted : Expectation) : YieldsAt depth next (unexpected wanted) R := by
  intro c a c' _ _ h
  obtain ⟨token, c₁, h₁, h⟩ := bind_eq_ok.mp h
  cases token with
  | some token => cases h
  | none =>
      obtain ⟨_, _, _, h⟩ := bind_eq_ok.mp h
      cases h

theorem yields_throw (e : SyntaxError) : Yields depth (throw e : Parse α) R := by
  intro c a c' _ h
  cases h

theorem yields_after_reduce {parent child : String} (h : Yields depth p R) :
    Yields depth (reduce parent child >>= fun _ => p) R := by
  intro c a c' hdepth hp hrange
  obtain ⟨ts, n, hadv, hR⟩ := h { c with trace := c.trace.record ⟨parent, child⟩ } a c' hdepth hp hrange
  exact ⟨ts, n, ⟨hadv.tokens, hadv.operators, hadv.limit, hadv.balanced⟩, hR⟩

theorem yields_after_expect {kind : Token.Kind} {wanted : Expectation}
    (h : ∀ span, Yields depth p fun ts a n => R (⟨kind, span⟩ :: ts) a n) :
    Yields depth (expect kind wanted >>= fun _ => p) R := by
  have hexpect : Yields depth (expect kind wanted) fun ts _ n => (∃ span, ts = [⟨kind, span⟩]) ∧ n = 0 := by
    refine yields_peek fun next => ?_
    split
    · next hk =>
        obtain ⟨token, rfl, rfl⟩ := Option.map_eq_some_iff.mp hk
        intro c a c' _ ht hskip _
        exact ⟨[token], 0, advances_skip ht hskip, ⟨token.span, rfl⟩, rfl⟩
    · exact yieldsAt_unexpected wanted
  refine hexpect.bind fun _ ts n hread => ?_
  obtain ⟨⟨span, rfl⟩, rfl⟩ := hread
  simpa only [List.singleton_append, Nat.zero_add] using h span

theorem yields_after_ident {f : String → Parse α} {wanted : Expectation}
    (h : ∀ name span, Yields depth (f name) fun ts a n => R (⟨.ident name, span⟩ :: ts) a n) :
    Yields depth (expectIdent wanted >>= f) R := by
  have hident : Yields depth (expectIdent wanted) fun ts name n =>
      (∃ span, ts = [⟨.ident name, span⟩]) ∧ n = 0 := by
    refine yields_peek fun next => ?_
    split
    · next name span => exact yieldsAt_skip fun _ => yields_pure ⟨⟨span, rfl⟩, rfl⟩
    · exact yieldsAt_unexpected wanted
  refine hident.bind fun name ts n hread => ?_
  obtain ⟨⟨span, rfl⟩, rfl⟩ := hread
  simpa only [List.singleton_append, Nat.zero_add] using h name span

theorem yields_after_count {span : Span} (h : Yields depth p fun ts a n => R ts a (n + 1)) :
    Yields depth (countOperator span >>= fun _ => p) R := by
  intro c a c' hdepth hp hrange
  obtain ⟨_, c₁, hcount, hp⟩ := bind_eq_ok.mp hp
  have hadv : c.Advances c₁ [] 1 := by
    obtain ⟨_, c₂, h₁, hcount⟩ := bind_eq_ok.mp hcount
    obtain ⟨_, c₃, h₂, hcount⟩ := bind_eq_ok.mp hcount
    cases h₁
    cases h₂
    split at hcount
    · cases hcount
    · next hlimit =>
        cases hcount
        exact ⟨rfl, rfl, fun _ => Nat.le_of_not_lt hlimit, rfl⟩
  rw [hadv.tokens] at hrange
  obtain ⟨ts, n, hadv', hR⟩ := h c₁ a c' (hadv.balanced.trans hdepth) hp hrange
  have hboth := hadv.trans hadv'
  rw [Nat.add_comm 1 n] at hboth
  exact ⟨ts, n + 1, hboth, hR⟩

end

/-- A derivation that is not too deep, with the operators of its tree. -/
def Within (form : Form) (room : Nat) (ts : List Token) (e : Expr) (n : Nat) : Prop :=
  ∃ d ≤ room, Derives form ts e d ∧ n = e.operators

/-- The operators that are looked for at each level. -/
def table : Level → Token.Kind → Option BinaryOp
  | .or => orOp?
  | .and => andOp?
  | .cmp => cmpOp?
  | .sum => sumOp?
  | .term => termOp?

theorem table_eq_some {l : Level} {kind : Token.Kind} {op : BinaryOp} :
    table l kind = some op ↔ op.level = l ∧ kind = op.sign := by
  constructor
  · intro h
    cases l <;> simp only [table, orOp?, andOp?, cmpOp?, sumOp?, termOp?] at h <;> split at h <;>
      cases h <;> exact ⟨rfl, rfl⟩
  · rintro ⟨rfl, rfl⟩
    rcases op with op | op | op <;> cases op <;> rfl

section
variable {operand : Parse Expr} {l : Level} {depth room : Nat}

theorem yields_operator {f : Option (BinaryOp × Span) → Parse Expr}
    {R : List Token → Expr → Nat → Prop} (hnone : Yields depth (f none) R)
    (hsome : ∀ op span, op.level = l → YieldsAt depth (some ⟨op.sign, span⟩) (f (some (op, span))) R) :
    Yields depth (operator? (table l) >>= f) R := by
  show Yields depth (peek >>= fun next => f (next.bind fun token =>
    (table l token.kind).map fun op => (op, token.span))) R
  refine yields_peek fun next => ?_
  cases next with
  | none => exact hnone.at none
  | some token =>
      obtain ⟨kind, span⟩ := token
      cases hk : table l kind with
      | none =>
          simp only [Option.bind_some, hk, Option.map_none]
          exact hnone.at _
      | some op =>
          obtain ⟨hlevel, rfl⟩ := table_eq_some.mp hk
          simp only [Option.bind_some, hk, Option.map_some]
          exact hsome op span hlevel

theorem yields_chain (hoperand : Yields depth operand (Within l.operand room)) (bound : Nat)
    (hbound : l = .cmp → bound ≤ 1) (lhs : Expr) :
    Yields depth (chain (table l) operand bound lhs) fun ts e n =>
      ∃ d ≤ room, Derives (.tail l lhs) ts e d ∧ e.operators = lhs.operators + n := by
  induction bound generalizing lhs with
  | zero => exact yields_pure ⟨0, Nat.zero_le _, .done, rfl⟩
  | succ bound ih =>
      refine yields_operator (yields_pure ⟨0, Nat.zero_le _, .done, rfl⟩) fun op span hlevel => ?_
      refine yieldsAt_skip fun _ => hoperand.bind fun rhs ts n hrhs => ?_
      obtain ⟨d, hd, hrhs, rfl⟩ := hrhs
      refine yields_after_count ?_
      by_cases hl : l = .cmp
      · subst hl
        obtain rfl : bound = 0 := by
          have := hbound rfl
          omega
        refine yields_pure ⟨d, hd, ?_, ?_⟩
        · simpa using Derives.compare hlevel hrhs
        · simp only [Expr.operators]
          omega
      · refine (ih (fun h => absurd h hl) _).mono fun more e m he => ?_
        obtain ⟨d', hd', he, hops⟩ := he
        refine ⟨max d d', Nat.max_le.mpr ⟨hd, hd'⟩, ?_, ?_⟩
        · simpa using Derives.more hlevel hl hrhs he
        · simp only [Expr.operators] at hops
          omega

theorem yields_level (hoperand : Yields depth operand (Within l.operand room)) (bound : Nat)
    (hbound : l = .cmp → bound ≤ 1) (parent child : String) :
    Yields depth (do
      let lhs ← operand
      let e ← chain (table l) operand bound lhs
      reduce parent child
      return e) (Within (.level l) room) := by
  refine hoperand.bind fun lhs ts n hlhs => ?_
  obtain ⟨d, hd, hlhs, rfl⟩ := hlhs
  refine (yields_chain hoperand bound hbound lhs).bind fun e more m he => ?_
  obtain ⟨d', hd', he, hops⟩ := he
  refine yields_after_reduce (yields_pure ⟨max d d', Nat.max_le.mpr ⟨hd, hd'⟩, ?_, ?_⟩)
  · simpa using Derives.level hlhs he
  · omega

end

theorem yields_expression {unary : Parse Expr} {depth room : Nat} (h : Yields depth unary (Within .unary room)) :
    Yields depth (expression unary) (Within (.level .or) room) := by
  have hany : ∀ {l : Level}, l ≠ .cmp → l = .cmp → operatorLimit + 1 ≤ 1 := fun hl h => absurd h hl
  have hterm := yields_level (l := .term) h _ (hany (by decide)) "term" "unary"
  have hsum := yields_level (l := .sum) hterm _ (hany (by decide)) "sum" "term"
  have hcmp := yields_level (l := .cmp) hsum 1 (fun _ => Nat.le_refl 1) "cmp" "sum"
  have hand := yields_level (l := .and) hcmp _ (hany (by decide)) "and" "cmp"
  have hor := yields_level (l := .or) hand _ (hany (by decide)) "or" "and"
  refine Yields.bind hor fun e ts n he => yields_after_reduce (yields_pure ?_)
  simpa using he

section
variable {deeper : Parse Expr} {depth room : Nat}

/-- What is read between entering a level and leaving it is read one level deeper. -/
theorem yields_nested {p : Parse β} {q : β → Parse α} {P : List Token → β → Nat → Prop}
    {R : List Token → α → Nat → Prop} {span : Span} (hp : depth < nestingLimit → Yields (depth + 1) p P)
    (hq : ∀ b ts n, P ts b n → Yields depth (q b) fun more a m => R (ts ++ more) a (n + m)) :
    Yields depth (do
      enter span
      let b ← p
      leave
      q b) R := by
  intro c a c'' hdepth h hrange
  obtain ⟨_, c₁, henter, h⟩ := bind_eq_ok.mp h
  obtain ⟨b, c₂, hb, h⟩ := bind_eq_ok.mp h
  obtain ⟨_, c₃, hleave, ha⟩ := bind_eq_ok.mp h
  cases hleave
  obtain ⟨_, c₄, hdeeper, henter⟩ := bind_eq_ok.mp henter
  obtain ⟨_, c₅, hget, henter⟩ := bind_eq_ok.mp henter
  cases hdeeper
  cases hget
  split at henter
  · cases henter
  · next hlimit =>
      cases henter
      have hlimit : depth < nestingLimit := by
        simp only at hlimit
        omega
      obtain ⟨ts, n, hadv, hP⟩ := hp hlimit _ b c₂ (congrArg (· + 1) hdepth) hb hrange
      have hback : c.Advances { c₂ with depth := c₂.depth - 1 } ts n := by
        refine ⟨hadv.tokens, hadv.operators, hadv.limit, ?_⟩
        rw [hadv.balanced, Nat.add_sub_cancel]
      have hrange' : ∀ token ∈ c₂.tokens, token.InRange := by
        intro token hmem
        exact hrange token (hback.tokens ▸ List.mem_append_right ts hmem)
      obtain ⟨more, m, hadv', hR⟩ := hq b ts n hP _ a c'' (hback.balanced.trans hdepth) ha hrange'
      exact ⟨ts ++ more, n + m, hback.trans hadv', hR⟩

theorem enter_at_limit {c : Cursor} (h : nestingLimit ≤ c.depth) (span : Span) (f : Unit → Parse α) :
    (enter span >>= f) c = .error ⟨span, .nestingTooDeep⟩ { c with depth := c.depth + 1 } := by
  refine bind_of_error ?_
  exact congrFun (if_pos (Nat.lt_succ_of_le h) : (if c.depth + 1 > nestingLimit then _ else _) = _) _

theorem applied_at_limit {c : Cursor} (h : nestingLimit ≤ c.depth) (p q : Parse Expr) (op : UnaryOp) (span : Span) :
    applied p op span c = applied q op span c := by
  cases hcount : countOperator span c with
  | error e c' => rw [applied, applied, bind_of_error hcount, bind_of_error hcount]
  | ok u c' =>
      have hdepth : nestingLimit ≤ c'.depth := by
        obtain ⟨_, c₁, h₁, hcount⟩ := bind_eq_ok.mp hcount
        obtain ⟨_, c₂, h₂, hcount⟩ := bind_eq_ok.mp hcount
        cases h₁
        cases h₂
        split at hcount <;> cases hcount
        exact h
      rw [applied, applied, bind_of_ok hcount, bind_of_ok hcount, enter_at_limit hdepth, enter_at_limit hdepth]

theorem primary_at_limit {c : Cursor} (h : nestingLimit ≤ c.depth) (p q : Parse Expr) :
    primary p c = primary q c := by
  rw [primary, primary, peek_bind, peek_bind]
  rcases c.tokens.head? with _ | ⟨kind, span⟩
  · rfl
  · cases kind with
    | int value => rfl
    | ident name => rfl
    | keyword word => cases word <;> rfl
    | punct sign =>
        cases sign
        case leftParen =>
          have hdepth : nestingLimit ≤ ({ c with tokens := c.tokens.tail } : Cursor).depth := h
          exact (enter_at_limit hdepth span _).trans (enter_at_limit hdepth span _).symm
        all_goals rfl

/-- At the limit nothing that is nested is read, so it does not matter how it would be. -/
theorem unaryWith_at_limit {c : Cursor} (h : nestingLimit ≤ c.depth) (p q : Parse Expr) :
    unaryWith p c = unaryWith q c := by
  have happlied : ∀ op span, applied p op span { c with tokens := c.tokens.tail } =
      applied q op span { c with tokens := c.tokens.tail } :=
    fun op span => applied_at_limit (c := { c with tokens := c.tokens.tail }) h p q op span
  have hprimary : (do let e ← primary p; reduce "unary" "primary"; return e : Parse Expr) c =
      (do let e ← primary q; reduce "unary" "primary"; return e : Parse Expr) c := by
    cases hq : primary q c with
    | error e c' => rw [bind_of_error hq, bind_of_error ((primary_at_limit h p q).trans hq)]
    | ok e c' => rw [bind_of_ok hq, bind_of_ok ((primary_at_limit h p q).trans hq)]
  rw [unaryWith, unaryWith, peek_bind, peek_bind]
  rcases c.tokens.head? with _ | ⟨kind, span⟩
  · exact hprimary
  · cases kind with
    | int value => exact hprimary
    | ident name => exact hprimary
    | keyword word =>
        cases word
        case notWord => exact happlied .not span
        all_goals exact hprimary
    | punct sign =>
        cases sign
        case minus =>
          have hskip : skip c = .ok () { c with tokens := c.tokens.tail } := rfl
          dsimp only
          rw [bind_of_ok hskip, bind_of_ok hskip, peek_bind, peek_bind]
          rcases c.tokens.tail.head? with _ | ⟨kind, digits⟩
          · exact happlied .neg span
          · cases kind with
            | int value => rfl
            | _ => exact happlied .neg span
        all_goals exact hprimary

/-- What is nested one level deeper is not as deep. -/
def Deeper (deeper : Parse Expr) (depth room : Nat) : Prop :=
  depth < nestingLimit → ∃ less < room, Yields (depth + 1) deeper (Within .unary less)

theorem yields_applied (h : Deeper deeper depth room) (op : UnaryOp) (span : Span) :
    Yields depth (applied deeper op span) fun ts e n =>
      (op = .neg → ¬ StartsWithLiteral ts) → Within .unary room (⟨op.sign, span⟩ :: ts) e n := by
  refine yields_after_count ?_
  have hinner : depth < nestingLimit → Yields (depth + 1) deeper fun ts e n =>
      ∃ d < room, Derives .unary ts e d ∧ n = e.operators := by
    intro hdepth
    obtain ⟨less, hless, hp⟩ := h hdepth
    refine hp.mono fun ts e n he => ?_
    obtain ⟨d, hd, he⟩ := he
    exact ⟨d, Nat.lt_of_le_of_lt hd hless, he⟩
  refine yields_nested hinner fun operand ts n hoperand => ?_
  obtain ⟨d, hd, hoperand, rfl⟩ := hoperand
  refine yields_after_reduce (yields_pure fun hnot => ⟨d + 1, hd, .apply hnot ?_, rfl⟩)
  simpa using hoperand

theorem toInt_ofNat {value : Nat} (h : ¬ value > largestLiteral) :
    (Int64.ofNat value).toInt = value :=
  Int64.toInt_ofNat_of_lt (by rw [largestLiteral] at h; omega)

theorem toInt_ofInt_neg {value : Nat} (h : value ≤ 9223372036854775808) :
    (Int64.ofInt (-value)).toInt = -value :=
  Int64.toInt_ofInt_of_le (by omega) (by omega)

theorem yields_leaf {token : Token} {leaf : Expr} (h : Derives .primary [token] leaf 0)
    (hops : leaf.operators = 0) (child : String) :
    Yields depth (reduce "primary" child >>= fun _ => pure leaf) fun ts e n =>
      Within .primary room (token :: ts) e n := by
  exact yields_after_reduce (yields_pure ⟨0, Nat.zero_le _, h, hops.symm⟩)

theorem yields_primary (h : Deeper deeper depth room) : Yields depth (primary deeper) (Within .primary room) := by
  refine yields_peek fun next => ?_
  split
  · next value span =>
      dsimp only
      split
      · exact ((yields_throw _).bind fun _ _ _ hno => False.elim hno).at _
      · next hsmall => exact yieldsAt_skip fun _ => yields_leaf (.int (toInt_ofNat hsmall)) rfl _
  · next span => exact yieldsAt_skip fun _ => yields_leaf .trueWord rfl _
  · next span => exact yieldsAt_skip fun _ => yields_leaf .falseWord rfl _
  · next name span => exact yieldsAt_skip fun _ => yields_leaf .var rfl _
  · next span =>
      refine yieldsAt_skip fun _ => ?_
      have hinner : depth < nestingLimit → Yields (depth + 1) (expression deeper) fun ts e n =>
          ∃ d < room, Derives (.level .or) ts e d ∧ n = e.operators := by
        intro hdepth
        obtain ⟨less, hless, hunary⟩ := h hdepth
        refine (yields_expression hunary).mono fun ts e n he => ?_
        obtain ⟨d, hd, he⟩ := he
        exact ⟨d, Nat.lt_of_le_of_lt hd hless, he⟩
      refine yields_nested hinner fun e ts n he => ?_
      obtain ⟨d, hd, he, rfl⟩ := he
      refine yields_after_expect fun closing => yields_after_reduce ?_
      exact yields_pure ⟨d + 1, hd, .paren he, rfl⟩
  · exact yieldsAt_unexpected _

theorem yields_unaryWith (h : Deeper deeper depth room) :
    Yields depth (unaryWith deeper) (Within .unary room) := by
  refine yields_peek fun next => ?_
  split
  · next span =>
      refine yieldsAt_skip fun _ => yields_peek fun next => ?_
      split
      · next value digits =>
          refine yieldsAt_skip fun hrange => yields_after_reduce (yields_after_reduce ?_)
          exact yields_pure ⟨0, Nat.zero_le _, .negative (toInt_ofInt_neg (hrange value rfl)), rfl⟩
      · next hnot =>
          refine (yields_applied h .neg span).at_head fun ts e n he hhead => he fun _ hliteral => ?_
          cases ts with
          | nil => exact hliteral
          | cons token more =>
              obtain ⟨kind, digits⟩ := token
              cases kind with
              | int value => exact hnot value digits (hhead _ more rfl)
              | ident _ => exact hliteral
              | keyword _ => exact hliteral
              | punct _ => exact hliteral
  · next span =>
      refine yieldsAt_skip fun _ => (yields_applied h .not span).mono fun ts e n he => he ?_
      intro hneg
      cases hneg
  · refine ((yields_primary h).bind fun e ts n he => ?_).at _
    obtain ⟨d, hd, he, rfl⟩ := he
    refine yields_after_reduce (yields_pure ⟨d, hd, ?_, rfl⟩)
    simpa using Derives.primary he

end

theorem yields_unary {depth room : Nat} (h : depth + room = nestingLimit) :
    Yields depth (unary room) (Within .unary room) := by
  induction room generalizing depth with
  | zero =>
      refine yields_unaryWith fun hdepth => ?_
      omega
  | succ room ih =>
      refine yields_unaryWith fun _ => ⟨room, Nat.lt_succ_self room, ih ?_⟩
      omega

theorem yields_expr : Yields 0 expr (Within (.level .or) nestingLimit) :=
  yields_expression (yields_unary (Nat.zero_add _))

/-- The expression of a statement is moderate if no more operators were counted than there may be. -/
theorem Within.moderate {ts : List Token} {e : Expr} {n : Nat} (h : Within (.level .or) nestingLimit ts e n)
    (hn : n ≤ operatorLimit) : Moderate ts e := by
  obtain ⟨d, hd, he, rfl⟩ := h
  exact ⟨d, hd, he, hn⟩

/-- An expression and the semicolon behind it end a statement. -/
theorem yields_closed {f : Expr → Stmt} {R : List Token → Stmt → Nat → Prop} (kind : String)
    (h : ∀ ts e semi n, Within (.level .or) nestingLimit ts e n →
      R (ts ++ [⟨.punct .semi, semi⟩]) (f e) n) :
    Yields 0 (do
      let value ← expr
      semicolon
      reduce "stmt" kind
      return f value) R := by
  refine yields_expr.bind fun e ts n he => yields_after_expect fun semi => ?_
  exact yields_after_reduce (yields_pure (h ts e semi n he))

/-- A label and the semicolon behind it end a statement. -/
theorem yields_destination {f : String → Stmt} {R : List Token → Stmt → Nat → Prop} (kind : String)
    (h : ∀ name ident semi, R [⟨.ident name, ident⟩, ⟨.punct .semi, semi⟩] (f name) 0) :
    Yields 0 (do
      let label ← expectIdent .labelName
      semicolon
      reduce "stmt" kind
      return f label) R := by
  refine yields_after_ident fun name ident => yields_after_expect fun semi => ?_
  exact yields_after_reduce (yields_pure (h name ident semi))

/-- What is read is a statement if its operators are not too many. -/
def Stated (ts : List Token) (stmt : Stmt) (n : Nat) : Prop :=
  n ≤ operatorLimit → Statement Moderate ts stmt

theorem yields_label {name : String} {span colon : Span} {more : List Token} :
    YieldsOn 0 (⟨.ident name, span⟩ :: ⟨.punct .colon, colon⟩ :: more) (do
      skip
      skip
      reduce "stmt" "label"
      return Stmt.label name span) Stated := by
  intro c stmt c' _ ht h _
  cases h
  exact ⟨[⟨.ident name, span⟩, ⟨.punct .colon, colon⟩], 0, ⟨by simp [ht], rfl, id, rfl⟩, fun _ => .label⟩

/-- Every statement counts its operators from zero. -/
theorem sound_afresh {f : Cursor → Parse Stmt} (hf : ∀ c : Cursor, YieldsOn 0 c.tokens (f c) Stated)
    {c c' : Cursor} {stmt : Stmt}
    (h : (do
      modify fun cursor : Cursor => { cursor with operators := 0 }
      f (← get) : Parse Stmt) c = .ok stmt c') (hdepth : c.depth = 0)
    (hrange : ∀ token ∈ c.tokens, token.InRange) :
    ∃ ts, c.tokens = ts ++ c'.tokens ∧ c'.depth = 0 ∧ Statement Moderate ts stmt := by
  obtain ⟨_, c₁, h₁, h⟩ := bind_eq_ok.mp h
  cases h₁
  obtain ⟨ts, n, hadv, hstmt⟩ := hf _ { c with operators := 0 } stmt c' hdepth rfl h hrange
  refine ⟨ts, hadv.tokens, hadv.balanced.trans hdepth, hstmt ?_⟩
  have hn := hadv.operators
  have hlimit := hadv.limit (Nat.zero_le _)
  simp only [Nat.zero_add] at hn
  omega

theorem statement_sound {c c' : Cursor} {stmt : Stmt} (h : statement c = .ok stmt c') (hdepth : c.depth = 0)
    (hrange : ∀ token ∈ c.tokens, token.InRange) :
    ∃ ts, c.tokens = ts ++ c'.tokens ∧ c'.depth = 0 ∧ Statement Moderate ts stmt := by
  refine sound_afresh (fun c => ?_) h hdepth hrange
  generalize c.tokens = tokens
  split
  · exact yields_label
  · next name span more _ =>
      refine yieldsOn_skip fun _ => yields_after_expect fun sign => ?_
      exact yields_closed "assign" fun ts e semi n he hn => .assign (he.moderate hn)
  · next span more =>
      refine yieldsOn_skip fun _ => yields_after_ident fun name ident => ?_
      refine yields_after_expect fun sign => ?_
      exact yields_closed "let" fun ts e semi n he hn => .declare (he.moderate hn)
  · next span more =>
      refine yieldsOn_skip fun _ => ?_
      exact yields_closed "print" fun ts e semi n he hn => .print (he.moderate hn)
  · next span more =>
      refine yieldsOn_skip fun _ => ?_
      exact yields_destination "goto" fun name ident semi _ => .goto
  · next span more =>
      refine yieldsOn_skip fun _ => yields_expr.bind fun cond ts n hcond => ?_
      refine yields_after_expect fun goto => ?_
      exact yields_destination "if" fun name ident semi hn => .ifGoto (hcond.moderate hn)
  · next span more =>
      refine yieldsOn_skip fun _ => ?_
      exact yields_closed "exit" fun ts e semi n he hn => .exit (he.moderate hn)
  · exact (yieldsAt_unexpected _).on

theorem statements_sound {bound : Nat} {c c' : Cursor} {stmts : List Stmt}
    (h : statements bound c = .ok stmts c') (hdepth : c.depth = 0) (hbound : c.tokens.length ≤ bound)
    (hrange : ∀ token ∈ c.tokens, token.InRange) : Statements Moderate c.tokens stmts := by
  induction bound generalizing c stmts with
  | zero =>
      cases h
      rw [List.eq_nil_of_length_eq_zero (Nat.le_zero.mp hbound)]
      exact .nil
  | succ bound ih =>
      rw [statements, peek_bind] at h
      split at h
      · next hnone =>
          cases h
          rw [List.head?_eq_none_iff.mp (Option.isNone_iff_eq_none.mp hnone)]
          exact .nil
      · obtain ⟨stmt, c₁, h₁, h⟩ := bind_eq_ok.mp h
        obtain ⟨_, c₂, h₂, h⟩ := bind_eq_ok.mp h
        obtain ⟨rest, c₃, h₃, h⟩ := bind_eq_ok.mp h
        cases h
        cases h₂
        obtain ⟨ts, htokens, hdepth, hstmt⟩ := statement_sound h₁ hdepth hrange
        rw [htokens] at hbound hrange ⊢
        have hpos := List.length_pos_iff.mpr hstmt.ne_nil
        rw [List.length_append] at hbound
        have hless : c₁.tokens.length ≤ bound := by omega
        have hrest := ih h₃ hdepth hless fun token hmem => hrange token (List.mem_append_right _ hmem)
        exact .cons hstmt hrest

end Parser

end GotoLang
