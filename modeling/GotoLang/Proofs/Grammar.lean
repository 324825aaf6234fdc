import GotoLang.Ast
import GotoLang.SyntaxError

/-!
# The grammar

A program is a list of statements. Expressions have five levels of binary operators,

    or   := and ('or' and)*
    and  := cmp ('and' cmp)*
    cmp  := sum (('==' | '!=' | '<' | '<=' | '>' | '>=') sum)?
    sum  := term (('+' | '-') term)*
    term := unary (('*' | '/' | '%') unary)*

with unary operators and primary expressions below them. Derivations relate tokens to trees. What follows
the first operand of a level is derived with the tree on its left, so operators associate to the left. A
derivation also has a depth, the largest number of parentheses and unary operators around a point.

A literal stands for the word that has its value, so the least word can only be written with a minus sign.
A minus sign directly before a literal is a part of it and no operator.

The grammar is unambiguous: tokens have at most one tree. An operand ends where no operator of its own or a
tighter level follows, and where it ends decides everything else.
-/
namespace GotoLang

/-- The levels of binary operators, the loosest first. -/
inductive Grammar.Level where
  | or | and | cmp | sum | term
deriving DecidableEq

namespace Grammar

def Level.rank : Level → Nat
  | or => 0
  | and => 1
  | cmp => 2
  | sum => 3
  | term => 4

/-- What tokens may form: an expression of one level, what extends an expression on its left by operators
of one level, a unary or a primary expression. -/
inductive Form where
  | level (l : Level)
  | tail (l : Level) (lhs : Expr)
  | unary
  | primary

/-- What the operators of a level join. -/
def Level.operand : Level → Form
  | or => .level .and
  | and => .level .cmp
  | cmp => .level .sum
  | sum => .level .term
  | term => .unary

end Grammar

open Grammar

def BinaryOp.level : BinaryOp → Level
  | arith .add | arith .sub => .sum
  | arith .mul | arith .div | arith .rem => .term
  | cmp _ => .cmp
  | logic .and => .and
  | logic .or => .or

/-- The token that an operator is written as. -/
def BinaryOp.sign : BinaryOp → Token.Kind
  | arith .add => .punct .plus
  | arith .sub => .punct .minus
  | arith .mul => .punct .star
  | arith .div => .punct .slash
  | arith .rem => .punct .percent
  | cmp .eq => .punct .equal
  | cmp .ne => .punct .notEqual
  | cmp .lt => .punct .less
  | cmp .le => .punct .lessEqual
  | cmp .gt => .punct .greater
  | cmp .ge => .punct .greaterEqual
  | logic .and => .keyword .andWord
  | logic .or => .keyword .orWord

def UnaryOp.sign : UnaryOp → Token.Kind
  | neg => .punct .minus
  | not => .keyword .notWord

/-- The number of operators in an expression. -/
def Expr.operators : Expr → Nat
  | int _ _ | bool _ _ | var _ _ => 0
  | unary _ operand _ => operand.operators + 1
  | binary _ lhs rhs _ => lhs.operators + rhs.operators + 1

namespace Grammar

def StartsWithLiteral : List Token → Prop
  | ⟨.int _, _⟩ :: _ => True
  | _ => False

/-- Tokens form an expression, and no point of it is deeper than this. -/
inductive Derives : Form → List Token → Expr → Nat → Prop
  | level {l : Level} {ts more : List Token} {lhs e : Expr} {d d' : Nat} :
      Derives l.operand ts lhs d → Derives (.tail l lhs) more e d' →
      Derives (.level l) (ts ++ more) e (max d d')
  | done {l : Level} {lhs : Expr} : Derives (.tail l lhs) [] lhs 0
  | more {l : Level} {op : BinaryOp} {lhs rhs e : Expr} {span : Span} {ts more : List Token}
      {d d' : Nat} : op.level = l → l ≠ .cmp → Derives l.operand ts rhs d →
      Derives (.tail l (.binary op lhs rhs span)) more e d' →
      Derives (.tail l lhs) (⟨op.sign, span⟩ :: (ts ++ more)) e (max d d')
  | compare {op : BinaryOp} {lhs rhs : Expr} {span : Span} {ts : List Token} {d : Nat} :
      op.level = .cmp → Derives (.level .sum) ts rhs d →
      Derives (.tail .cmp lhs) (⟨op.sign, span⟩ :: ts) (.binary op lhs rhs span) d
  | apply {op : UnaryOp} {operand : Expr} {span : Span} {ts : List Token} {d : Nat} :
      (op = .neg → ¬ StartsWithLiteral ts) → Derives .unary ts operand d →
      Derives .unary (⟨op.sign, span⟩ :: ts) (.unary op operand span) (d + 1)
  | negative {value : Nat} {word : Word} {span digits : Span} : word.toInt = -value →
      Derives .unary [⟨.punct .minus, span⟩, ⟨.int value, digits⟩] (.int word span) 0
  | primary {ts : List Token} {e : Expr} {d : Nat} : Derives .primary ts e d → Derives .unary ts e d
  | int {value : Nat} {word : Word} {span : Span} : word.toInt = value →
      Derives .primary [⟨.int value, span⟩] (.int word span) 0
  | trueWord {span : Span} : Derives .primary [⟨.keyword .trueWord, span⟩] (.bool true span) 0
  | falseWord {span : Span} : Derives .primary [⟨.keyword .falseWord, span⟩] (.bool false span) 0
  | var {name : String} {span : Span} : Derives .primary [⟨.ident name, span⟩] (.var name span) 0
  | paren {ts : List Token} {e : Expr} {d : Nat} {opening closing : Span} :
      Derives (.level .or) ts e d →
      Derives .primary (⟨.punct .leftParen, opening⟩ :: (ts ++ [⟨.punct .rightParen, closing⟩])) e
        (d + 1)

def Expression (ts : List Token) (e : Expr) : Prop :=
  ∃ d, Derives (.level .or) ts e d

/-- An expression within the limits of depth and number of operators. -/
def Moderate (ts : List Token) (e : Expr) : Prop :=
  ∃ d ≤ nestingLimit, Derives (.level .or) ts e d ∧ e.operators ≤ operatorLimit

/-- A statement whose expression, if it has one, is of some kind. -/
inductive Statement (expression : List Token → Expr → Prop) : List Token → Stmt → Prop
  | label {name : String} {span colon : Span} :
      Statement expression [⟨.ident name, span⟩, ⟨.punct .colon, colon⟩] (.label name span)
  | declare {name : String} {value : Expr} {ts : List Token} {span ident sign semi : Span} :
      expression ts value → Statement expression
        (⟨.keyword .letWord, span⟩ :: ⟨.ident name, ident⟩ :: ⟨.punct .assign, sign⟩ ::
          (ts ++ [⟨.punct .semi, semi⟩])) (.declare name value span)
  | assign {name : String} {value : Expr} {ts : List Token} {span sign semi : Span} :
      expression ts value → Statement expression
        (⟨.ident name, span⟩ :: ⟨.punct .assign, sign⟩ :: (ts ++ [⟨.punct .semi, semi⟩]))
        (.assign name value span)
  | print {value : Expr} {ts : List Token} {span semi : Span} :
      expression ts value → Statement expression
        (⟨.keyword .printWord, span⟩ :: (ts ++ [⟨.punct .semi, semi⟩])) (.print value span)
  | goto {name : String} {span ident semi : Span} : Statement expression
      [⟨.keyword .gotoWord, span⟩, ⟨.ident name, ident⟩, ⟨.punct .semi, semi⟩] (.goto name span)
  | ifGoto {name : String} {cond : Expr} {ts : List Token} {span goto ident semi : Span} :
      expression ts cond → Statement expression
        (⟨.keyword .ifWord, span⟩ :: (ts ++
          [⟨.keyword .gotoWord, goto⟩, ⟨.ident name, ident⟩, ⟨.punct .semi, semi⟩]))
        (.ifGoto cond name span)
  | exit {value : Expr} {ts : List Token} {span semi : Span} :
      expression ts value → Statement expression
        (⟨.keyword .exitWord, span⟩ :: (ts ++ [⟨.punct .semi, semi⟩])) (.exit value span)

inductive Statements (expression : List Token → Expr → Prop) : List Token → List Stmt → Prop
  | nil : Statements expression [] []
  | cons {ts more : List Token} {stmt : Stmt} {stmts : List Stmt} : Statement expression ts stmt →
      Statements expression more stmts → Statements expression (ts ++ more) (stmt :: stmts)

theorem Moderate.expression {ts : List Token} {e : Expr} (h : Moderate ts e) : Expression ts e := by
  obtain ⟨d, _, he, _⟩ := h
  exact ⟨d, he⟩

section
variable {expression wider : List Token → Expr → Prop}

theorem Statement.mono {ts : List Token} {stmt : Stmt} (h : Statement expression ts stmt)
    (hwider : ∀ {ts e}, expression ts e → wider ts e) : Statement wider ts stmt := by
  cases h with
  | label => exact .label
  | declare he => exact .declare (hwider he)
  | assign he => exact .assign (hwider he)
  | print he => exact .print (hwider he)
  | goto => exact .goto
  | ifGoto he => exact .ifGoto (hwider he)
  | exit he => exact .exit (hwider he)

theorem Statements.mono {ts : List Token} {stmts : List Stmt} (h : Statements expression ts stmts)
    (hwider : ∀ {ts e}, expression ts e → wider ts e) : Statements wider ts stmts := by
  induction h with
  | nil => exact .nil
  | cons hs _ ih => exact .cons (hs.mono hwider) ih

end

theorem sign_injective {op op' : BinaryOp} (h : op.sign = op'.sign) : op = op' := by
  rcases op with op | op | op <;> cases op <;> rcases op' with op' | op' | op' <;> cases op' <;>
    first | rfl | cases h

theorem operator_inj {op op' : BinaryOp} {span span' : Span}
    (h : (⟨op.sign, span⟩ : Token) = ⟨op'.sign, span'⟩) : op = op' ∧ span = span' := by
  obtain ⟨hsign, hspan⟩ := Token.mk.inj h
  exact ⟨sign_injective hsign, hspan⟩

theorem unarySign_injective {op op' : UnaryOp} (h : op.sign = op'.sign) : op = op' := by
  cases op <;> cases op' <;> first | rfl | cases h

/-- What follows, if it is an operator, is of a looser level. -/
def Form.Stops : Form → List Token → Prop
  | .level l, rest | .tail l _, rest =>
    ∀ op span, rest.head? = some ⟨BinaryOp.sign op, span⟩ → op.level.rank < l.rank
  | .unary, _ | .primary, _ => True

/-- What ends an expression in a larger phrase is no operator. -/
theorem stops_closing {form : Form} {kind : Token.Kind} {span : Span} {rest : List Token}
    (h : kind = .punct .rightParen ∨ kind = .punct .semi ∨ kind = .keyword .gotoWord) :
    form.Stops (⟨kind, span⟩ :: rest) := by
  have hne : ∀ op : BinaryOp, kind ≠ op.sign := by
    rintro (op | op | op) rfl <;> cases op <;> simp [BinaryOp.sign] at h
  cases form with
  | level l =>
      intro op span' he
      exact absurd (Token.mk.inj (Option.some.inj he)).1 (hne op)
  | tail l lhs =>
      intro op span' he
      exact absurd (Token.mk.inj (Option.some.inj he)).1 (hne op)
  | unary => trivial
  | primary => trivial

/-- An operand ends before an operator of the level that it is an operand of. -/
theorem stops_operand {l : Level} {rest : List Token}
    (h : ∀ op span, rest.head? = some ⟨BinaryOp.sign op, span⟩ → op.level.rank ≤ l.rank) :
    l.operand.Stops rest := by
  cases l with
  | term => trivial
  | _ => exact fun op span he => Nat.lt_succ_of_le (h op span he)

theorem Form.Stops.operand {l : Level} {lhs : Expr} {rest : List Token}
    (h : (Form.tail l lhs).Stops rest) : l.operand.Stops rest :=
  stops_operand fun op span he => Nat.le_of_lt (h op span he)

theorem Derives.stops_operand {l : Level} {lhs e : Expr} {ts rest : List Token} {d : Nat}
    (h : Derives (.tail l lhs) ts e d) (hs : (Form.tail l lhs).Stops rest) :
    l.operand.Stops (ts ++ rest) := by
  cases h with
  | done => exact hs.operand
  | more hop =>
      refine Grammar.stops_operand fun op span he => ?_
      obtain ⟨rfl, -⟩ := operator_inj (Option.some.inj he)
      exact Nat.le_of_eq (congrArg Level.rank hop)
  | compare hop =>
      refine Grammar.stops_operand fun op span he => ?_
      obtain ⟨rfl, -⟩ := operator_inj (Option.some.inj he)
      exact Nat.le_of_eq (congrArg Level.rank hop)

theorem Derives.ne_nil {form : Form} {ts : List Token} {e : Expr} {d : Nat}
    (h : Derives form ts e d) (hform : ∀ l lhs, form ≠ .tail l lhs) : ts ≠ [] := by
  induction h with
  | @level l _ _ _ _ _ _ _ _ ih _ =>
      intro hnil
      refine ih (fun l' lhs' hform' => ?_) (List.append_eq_nil_iff.mp hnil).1
      cases l <;> cases hform'
  | done => exact absurd rfl (hform _ _)
  | more => exact List.cons_ne_nil _ _
  | compare => exact List.cons_ne_nil _ _
  | apply => exact List.cons_ne_nil _ _
  | negative => exact List.cons_ne_nil _ _
  | primary _ ih => exact ih fun l lhs => Form.noConfusion
  | int => exact List.cons_ne_nil _ _
  | trueWord => exact List.cons_ne_nil _ _
  | falseWord => exact List.cons_ne_nil _ _
  | var => exact List.cons_ne_nil _ _
  | paren => exact List.cons_ne_nil _ _

/-- A primary expression does not start with a unary operator. -/
theorem Derives.not_sign {ts rest more : List Token} {e : Expr} {d : Nat} {span : Span}
    (h : Derives .primary ts e d) (op : UnaryOp) : ts ++ rest ≠ ⟨op.sign, span⟩ :: more := by
  intro heq
  cases h <;> cases op <;> cases heq

/-- What a minus sign is applied to does not start with a literal. -/
theorem Derives.not_literal {ts rest more : List Token} {e : Expr} {d value : Nat} {op : UnaryOp}
    {span minus digits : Span} (h : Derives .unary ts e d) (hnot : op = .neg → ¬ StartsWithLiteral ts) :
    ⟨op.sign, span⟩ :: (ts ++ rest) ≠ ⟨.punct .minus, minus⟩ :: ⟨.int value, digits⟩ :: more := by
  intro heq
  obtain ⟨htoken, htail⟩ := List.cons.inj heq
  have hneg : op = .neg := unarySign_injective (Token.mk.inj htoken).1
  cases ts with
  | nil => exact h.ne_nil (fun l lhs hform => by cases hform) rfl
  | cons token ts =>
      refine hnot hneg ?_
      rw [(List.cons.inj htail).1]
      trivial

theorem Form.Stops.absurd {l : Level} {lhs : Expr} {op : BinaryOp} {span : Span}
    {rest more : List Token} (h : (Form.tail l lhs).Stops rest) (hop : op.level = l)
    (heq : rest = ⟨op.sign, span⟩ :: more) : False := by
  have hlt := h op span (by rw [heq]; rfl)
  rw [hop] at hlt
  exact Nat.lt_irrefl _ hlt

/-- Two derivations from the start of the same tokens, both of which end where nothing extends them, are of
the same tokens, tree and depth. -/
theorem Derives.unique {form : Form} {ts ts' rest rest' : List Token} {e e' : Expr} {d d' : Nat}
    (h : Derives form ts e d) (h' : Derives form ts' e' d') (heq : ts ++ rest = ts' ++ rest')
    (hs : form.Stops rest) (hs' : form.Stops rest') : ts = ts' ∧ e = e' ∧ d = d' := by
  induction h generalizing ts' rest rest' e' d' with
  | level ho ht iho iht =>
      cases h' with
      | level ho' ht' =>
          rw [List.append_assoc, List.append_assoc] at heq
          obtain ⟨rfl, rfl, rfl⟩ := iho ho' heq (ht.stops_operand hs) (ht'.stops_operand hs')
          obtain ⟨rfl, rfl, rfl⟩ := iht ht' (List.append_cancel_left heq) hs hs'
          exact ⟨rfl, rfl, rfl⟩
  | done =>
      cases h' with
      | done => exact ⟨rfl, rfl, rfl⟩
      | more hop => exact (hs.absurd hop heq).elim
      | compare hop => exact (hs.absurd hop heq).elim
  | more hop hne ho ht iho iht =>
      cases h' with
      | done => exact (hs'.absurd hop heq.symm).elim
      | more hop' hne' ho' ht' =>
          rw [List.cons_append, List.cons_append, List.append_assoc, List.append_assoc] at heq
          obtain ⟨htoken, htail⟩ := List.cons.inj heq
          obtain ⟨rfl, rfl⟩ := operator_inj htoken
          obtain ⟨rfl, rfl, rfl⟩ := iho ho' htail (ht.stops_operand hs) (ht'.stops_operand hs')
          obtain ⟨rfl, rfl, rfl⟩ := iht ht' (List.append_cancel_left htail) hs hs'
          exact ⟨rfl, rfl, rfl⟩
      | compare => exact absurd rfl hne
  | compare hop ho iho =>
      cases h' with
      | done => exact (hs'.absurd hop heq.symm).elim
      | more _ hne => exact absurd rfl hne
      | compare hop' ho' =>
          obtain ⟨htoken, htail⟩ := List.cons.inj heq
          obtain ⟨rfl, rfl⟩ := operator_inj htoken
          obtain ⟨rfl, rfl, rfl⟩ := iho ho' htail hs.operand hs'.operand
          exact ⟨rfl, rfl, rfl⟩
  | apply hnot ho iho =>
      cases h' with
      | apply hnot' ho' =>
          obtain ⟨htoken, htail⟩ := List.cons.inj heq
          obtain ⟨hsign, rfl⟩ := Token.mk.inj htoken
          obtain rfl := unarySign_injective hsign
          obtain ⟨rfl, rfl, rfl⟩ := iho ho' htail hs hs'
          exact ⟨rfl, rfl, rfl⟩
      | negative => exact (ho.not_literal hnot heq).elim
      | primary hp => exact (hp.not_sign _ heq.symm).elim
  | negative hword =>
      cases h' with
      | apply hnot' ho' => exact (ho'.not_literal hnot' heq.symm).elim
      | negative hword' =>
          cases heq
          rw [Int64.toInt_inj.mp (hword.trans hword'.symm)]
          exact ⟨rfl, rfl, rfl⟩
      | primary hp => exact (hp.not_sign .neg heq.symm).elim
  | primary hp ihp =>
      cases h' with
      | apply => exact (hp.not_sign _ heq).elim
      | negative => exact (hp.not_sign .neg heq).elim
      | primary hp' => exact ihp hp' heq hs hs'
  | int hword =>
      cases h' with
      | int hword' =>
          cases heq
          rw [Int64.toInt_inj.mp (hword.trans hword'.symm)]
          exact ⟨rfl, rfl, rfl⟩
      | _ => cases heq
  | trueWord =>
      cases h' with
      | trueWord =>
          cases heq
          exact ⟨rfl, rfl, rfl⟩
      | _ => cases heq
  | falseWord =>
      cases h' with
      | falseWord =>
          cases heq
          exact ⟨rfl, rfl, rfl⟩
      | _ => cases heq
  | var =>
      cases h' with
      | var =>
          cases heq
          exact ⟨rfl, rfl, rfl⟩
      | _ => cases heq
  | paren ho iho =>
      cases h' with
      | paren ho' =>
          rw [List.cons_append, List.cons_append, List.append_assoc, List.append_assoc] at heq
          obtain ⟨htoken, htail⟩ := List.cons.inj heq
          obtain ⟨-, rfl⟩ := Token.mk.inj htoken
          obtain ⟨rfl, rfl, rfl⟩ := iho ho' htail
            (stops_closing (.inl rfl)) (stops_closing (.inl rfl))
          obtain ⟨hclosing, -⟩ := List.cons.inj (List.append_cancel_left htail)
          obtain ⟨-, rfl⟩ := Token.mk.inj hclosing
          exact ⟨rfl, rfl, rfl⟩
      | _ => cases heq

theorem Expression.unique {ts ts' rest rest' : List Token} {e e' : Expr} {kind : Token.Kind}
    {span span' : Span} (h : Expression ts e) (h' : Expression ts' e')
    (heq : ts ++ ⟨kind, span⟩ :: rest = ts' ++ ⟨kind, span'⟩ :: rest')
    (hk : kind = .punct .rightParen ∨ kind = .punct .semi ∨ kind = .keyword .gotoWord) :
    ts = ts' ∧ e = e' ∧ span = span' ∧ rest = rest' := by
  obtain ⟨d, h⟩ := h
  obtain ⟨d', h'⟩ := h'
  obtain ⟨rfl, rfl, -⟩ := h.unique h' heq (stops_closing hk) (stops_closing hk)
  obtain ⟨htoken, hrest⟩ := List.cons.inj (List.append_cancel_left heq)
  exact ⟨rfl, rfl, (Token.mk.inj htoken).2, hrest⟩

theorem Statement.unique {ts ts' rest rest' : List Token} {stmt stmt' : Stmt}
    (h : Statement Expression ts stmt) (h' : Statement Expression ts' stmt')
    (heq : ts ++ rest = ts' ++ rest') : ts = ts' ∧ stmt = stmt' := by
  -- The first two tokens tell the kind of a statement.
  cases h with
  | label =>
      cases h' with
      | label =>
          cases heq
          exact ⟨rfl, rfl⟩
      | _ => cases heq
  | declare he =>
      cases h' with
      | declare he' =>
          simp only [List.cons_append, List.append_assoc, List.cons.injEq, Token.mk.injEq,
            Token.Kind.ident.injEq, true_and] at heq
          obtain ⟨rfl, ⟨rfl, rfl⟩, rfl, heq⟩ := heq
          obtain ⟨rfl, rfl, rfl, -⟩ := he.unique he' heq (.inr (.inl rfl))
          exact ⟨rfl, rfl⟩
      | _ => cases heq
  | assign he =>
      cases h' with
      | assign he' =>
          simp only [List.cons_append, List.append_assoc, List.cons.injEq, Token.mk.injEq,
            Token.Kind.ident.injEq, true_and] at heq
          obtain ⟨⟨rfl, rfl⟩, rfl, heq⟩ := heq
          obtain ⟨rfl, rfl, rfl, -⟩ := he.unique he' heq (.inr (.inl rfl))
          exact ⟨rfl, rfl⟩
      | _ => cases heq
  | print he =>
      cases h' with
      | print he' =>
          simp only [List.cons_append, List.append_assoc, List.cons.injEq, Token.mk.injEq,
            true_and] at heq
          obtain ⟨rfl, heq⟩ := heq
          obtain ⟨rfl, rfl, rfl, -⟩ := he.unique he' heq (.inr (.inl rfl))
          exact ⟨rfl, rfl⟩
      | _ => cases heq
  | goto =>
      cases h' with
      | goto =>
          cases heq
          exact ⟨rfl, rfl⟩
      | _ => cases heq
  | ifGoto he =>
      cases h' with
      | ifGoto he' =>
          simp only [List.cons_append, List.append_assoc, List.cons.injEq, Token.mk.injEq,
            true_and] at heq
          obtain ⟨rfl, heq⟩ := heq
          obtain ⟨rfl, rfl, rfl, hrest⟩ := he.unique he' heq (.inr (.inr rfl))
          cases hrest
          exact ⟨rfl, rfl⟩
      | _ => cases heq
  | exit he =>
      cases h' with
      | exit he' =>
          simp only [List.cons_append, List.append_assoc, List.cons.injEq, Token.mk.injEq,
            true_and] at heq
          obtain ⟨rfl, heq⟩ := heq
          obtain ⟨rfl, rfl, rfl, -⟩ := he.unique he' heq (.inr (.inl rfl))
          exact ⟨rfl, rfl⟩
      | _ => cases heq

theorem Statement.ne_nil {expression : List Token → Expr → Prop} {ts : List Token} {stmt : Stmt}
    (h : Statement expression ts stmt) : ts ≠ [] := by
  cases h <;> exact List.cons_ne_nil _ _

theorem Statements.unique {ts : List Token} {stmts stmts' : List Stmt}
    (h : Statements Expression ts stmts) (h' : Statements Expression ts stmts') : stmts = stmts' := by
  induction h generalizing stmts' with
  | nil =>
      generalize hts : ([] : List Token) = ts at h'
      cases h' with
      | nil => rfl
      | cons hs' _ => exact absurd (List.append_eq_nil_iff.mp hts.symm).1 hs'.ne_nil
  | @cons ts more _ _ hs _ ih =>
      generalize hts : ts ++ more = all at h'
      cases h' with
      | nil => exact absurd (List.append_eq_nil_iff.mp hts).1 hs.ne_nil
      | cons hs' hrest' =>
          obtain ⟨rfl, rfl⟩ := hs.unique hs' hts
          rw [ih (List.append_cancel_left hts ▸ hrest')]

end Grammar

end GotoLang
