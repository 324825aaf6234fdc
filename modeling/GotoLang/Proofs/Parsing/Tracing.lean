import GotoLang.Ast.Parser

/-!
# What the parser leaves to its trace

A parser writes to its trace and never looks at it. From the same tokens it takes the same way whatever was
recorded before, whether the graph is open, and wherever its sink gives up: the outcome is the same, the
tokens that are left are the same, and the same reductions are recorded behind the ones that are there.

Only one nonterminal is ever completed with its own kind as principal child, the unary expression.
-/
namespace GotoLang

/-- Among the nonterminals only a unary expression has its own kind as principal child. -/
def Reduction.Proper (reduction : Reduction) : Prop :=
  reduction.parent = reduction.child → reduction.parent = "unary"

namespace Parser
variable {α β : Type}

/-- Add completed reductions in order. -/
def Trace.recordAll (reductions : List Reduction) (trace : Trace) : Trace :=
  reductions.foldl (fun trace reduction => trace.record reduction) trace

theorem Trace.recordAll_append (first second : List Reduction) (trace : Trace) :
    trace.recordAll (first ++ second) = (trace.recordAll first).recordAll second :=
  List.foldl_append

/-- Where a parser gets to, and the reductions it records on the way. -/
structure Way (α : Type) where
  outcome : Except SyntaxError α
  tokens : List Token
  depth : Nat
  operators : Nat
  reductions : List Reduction := []

/-- The end of a way that began with a trace. -/
def Way.result (way : Way α) (stop : Span) (trace : Trace) : EStateM.Result SyntaxError Cursor α :=
  let cursor : Cursor := ⟨way.tokens, stop, way.depth, way.operators, trace.recordAll way.reductions⟩
  match way.outcome with
  | .ok a => .ok a cursor
  | .error e => .error e cursor

/-- From the same tokens a parser takes the same way with every trace. -/
def Oblivious (p : Parse α) : Prop :=
  ∀ tokens stop depth operators, ∃ way : Way α, (∀ reduction ∈ way.reductions, reduction.Proper) ∧
    ∀ trace, p ⟨tokens, stop, depth, operators, trace⟩ = way.result stop trace

theorem oblivious_pure (a : α) : Oblivious (pure a) := by
  intro tokens stop depth operators
  exact ⟨⟨.ok a, tokens, depth, operators, []⟩, by simp, fun _ => rfl⟩

theorem oblivious_throw (e : SyntaxError) : Oblivious (throw e : Parse α) := by
  intro tokens stop depth operators
  exact ⟨⟨.error e, tokens, depth, operators, []⟩, by simp, fun _ => rfl⟩

theorem Oblivious.bind {p : Parse β} {f : β → Parse α} (hp : Oblivious p) (hf : ∀ b, Oblivious (f b)) :
    Oblivious (p >>= f) := by
  intro tokens stop depth operators
  obtain ⟨⟨outcome, tokens', depth', operators', first⟩, hfirst, hp⟩ := hp tokens stop depth operators
  cases outcome with
  | error e =>
      refine ⟨⟨.error e, tokens', depth', operators', first⟩, hfirst, fun trace => ?_⟩
      show EStateM.bind p f _ = _
      rw [EStateM.bind, hp trace]
      rfl
  | ok b =>
      -- What follows starts behind the reductions of the first part.
      obtain ⟨⟨outcome, tokens'', depth'', operators'', second⟩, hsecond, hf⟩ := hf b tokens' stop depth' operators'
      refine ⟨⟨outcome, tokens'', depth'', operators'', first ++ second⟩, ?_, fun trace => ?_⟩
      · intro reduction hmem
        rcases List.mem_append.mp hmem with hmem | hmem
        · exact hfirst reduction hmem
        · exact hsecond reduction hmem
      · show EStateM.bind p f _ = _
        rw [EStateM.bind, hp trace]
        show f b _ = _
        rw [hf]
        simp only [Way.result, Trace.recordAll_append]

/-- A parser may look at the cursor if it does not use the trace in it. -/
theorem oblivious_get {f : Cursor → Parse α}
    (hf : ∀ tokens stop depth operators trace trace',
      f ⟨tokens, stop, depth, operators, trace⟩ = f ⟨tokens, stop, depth, operators, trace'⟩)
    (h : ∀ cursor, Oblivious (f cursor)) : Oblivious (get >>= f) := by
  intro tokens stop depth operators
  obtain ⟨way, hproper, hway⟩ := h ⟨tokens, stop, depth, operators, { graph := .closed true }⟩ tokens stop depth
    operators
  refine ⟨way, hproper, fun trace => ?_⟩
  rw [← hway trace]
  exact congrFun (hf tokens stop depth operators trace _) _

theorem oblivious_peek : Oblivious peek :=
  oblivious_get (fun _ _ _ _ _ _ => rfl) fun cursor => oblivious_pure cursor.tokens.head?

theorem oblivious_skip : Oblivious skip := by
  intro tokens stop depth operators
  exact ⟨⟨.ok (), tokens.tail, depth, operators, []⟩, by simp, fun _ => rfl⟩

theorem oblivious_afresh : Oblivious (modify fun cursor : Cursor => { cursor with operators := 0 }) := by
  intro tokens stop depth operators
  exact ⟨⟨.ok (), tokens, depth, 0, []⟩, by simp, fun _ => rfl⟩

theorem oblivious_reduce {parent child : String} (h : Reduction.Proper ⟨parent, child⟩) :
    Oblivious (reduce parent child) := by
  intro tokens stop depth operators
  exact ⟨⟨.ok (), tokens, depth, operators, [⟨parent, child⟩]⟩, by simpa using h, fun _ => rfl⟩

/-- The last step of most parsers. -/
theorem oblivious_complete {parent child : String} (h : Reduction.Proper ⟨parent, child⟩) (a : α) :
    Oblivious (reduce parent child >>= fun _ => pure a) :=
  (oblivious_reduce h).bind fun _ => oblivious_pure a

theorem oblivious_unexpected (wanted : Expectation) : Oblivious (unexpected wanted : Parse α) := by
  refine oblivious_peek.bind fun next => ?_
  cases next with
  | some token => exact oblivious_throw _
  | none => exact oblivious_get (fun _ _ _ _ _ _ => rfl) fun cursor => oblivious_throw _

theorem oblivious_expect (kind : Token.Kind) (wanted : Expectation) : Oblivious (expect kind wanted) := by
  refine oblivious_peek.bind fun next => ?_
  split
  · exact oblivious_skip
  · exact oblivious_unexpected wanted

theorem oblivious_expectIdent (wanted : Expectation) : Oblivious (expectIdent wanted) := by
  refine oblivious_peek.bind fun next => ?_
  split
  · next name span => exact oblivious_skip.bind fun _ => oblivious_pure name
  · exact oblivious_unexpected wanted

theorem oblivious_countOperator (span : Span) : Oblivious (countOperator span) := by
  have hcount : Oblivious (modify fun cursor : Cursor => { cursor with operators := cursor.operators + 1 }) := by
    intro tokens stop depth operators
    exact ⟨⟨.ok (), tokens, depth, operators + 1, []⟩, by simp, fun _ => rfl⟩
  refine hcount.bind fun _ => oblivious_get (fun _ _ _ _ _ _ => rfl) fun cursor => ?_
  split
  · exact oblivious_throw _
  · exact oblivious_pure ()

theorem oblivious_enter (span : Span) : Oblivious (enter span) := by
  have hdeeper : Oblivious (modify fun cursor : Cursor => { cursor with depth := cursor.depth + 1 }) := by
    intro tokens stop depth operators
    exact ⟨⟨.ok (), tokens, depth + 1, operators, []⟩, by simp, fun _ => rfl⟩
  refine hdeeper.bind fun _ => oblivious_get (fun _ _ _ _ _ _ => rfl) fun cursor => ?_
  split
  · exact oblivious_throw _
  · exact oblivious_pure ()

theorem oblivious_leave : Oblivious leave := by
  intro tokens stop depth operators
  exact ⟨⟨.ok (), tokens, depth - 1, operators, []⟩, by simp, fun _ => rfl⟩

section
variable {operand : Parse Expr}

theorem oblivious_operator (op? : Token.Kind → Option BinaryOp) : Oblivious (operator? op?) :=
  oblivious_peek.bind fun _ => oblivious_pure _

theorem oblivious_chain (h : Oblivious operand) (op? : Token.Kind → Option BinaryOp) (bound : Nat)
    (lhs : Expr) : Oblivious (chain op? operand bound lhs) := by
  induction bound generalizing lhs with
  | zero => exact oblivious_pure lhs
  | succ bound ih =>
      refine (oblivious_operator op?).bind fun found => ?_
      match found with
      | none => exact oblivious_pure lhs
      | some (op, span) =>
          refine oblivious_skip.bind fun _ => h.bind fun rhs => ?_
          exact (oblivious_countOperator span).bind fun _ => ih (.binary op lhs rhs span)

theorem oblivious_level (h : Oblivious operand) (parent child : String)
    (hproper : Reduction.Proper ⟨parent, child⟩) (op? : Token.Kind → Option BinaryOp) :
    Oblivious (level parent child op? operand) :=
  h.bind fun lhs => (oblivious_chain h op? _ lhs).bind fun e => oblivious_complete hproper e

theorem oblivious_comparison (h : Oblivious operand) : Oblivious (comparison operand) :=
  h.bind fun lhs => (oblivious_chain h cmpOp? 1 lhs).bind fun e =>
    oblivious_complete (by simp [Reduction.Proper]) e

end

theorem oblivious_expression {unary : Parse Expr} (h : Oblivious unary) : Oblivious (expression unary) := by
  have hterm := oblivious_level h "term" "unary" (by simp [Reduction.Proper]) termOp?
  have hsum := oblivious_level hterm "sum" "term" (by simp [Reduction.Proper]) sumOp?
  have hcmp := oblivious_comparison hsum
  have hand := oblivious_level hcmp "and" "cmp" (by simp [Reduction.Proper]) andOp?
  have hor := oblivious_level hand "or" "and" (by simp [Reduction.Proper]) orOp?
  exact hor.bind fun e => oblivious_complete (by simp [Reduction.Proper]) e

section
variable {deeper : Parse Expr}

theorem oblivious_leaf {child : String} (h : Reduction.Proper ⟨"primary", child⟩) (leaf : Expr) :
    Oblivious (do
      skip
      reduce "primary" child
      return leaf) :=
  oblivious_skip.bind fun _ => oblivious_complete h leaf

theorem oblivious_primary (h : Oblivious deeper) : Oblivious (primary deeper) := by
  have hint : Reduction.Proper ⟨"primary", "INT"⟩ := by simp [Reduction.Proper]
  have hbool : Reduction.Proper ⟨"primary", "BOOL"⟩ := by simp [Reduction.Proper]
  have hident : Reduction.Proper ⟨"primary", "IDENT"⟩ := by simp [Reduction.Proper]
  refine oblivious_peek.bind fun next => ?_
  split
  · dsimp only
    split
    · exact (oblivious_throw _).bind fun _ => oblivious_leaf hint _
    · exact oblivious_leaf hint _
  · exact oblivious_leaf hbool _
  · exact oblivious_leaf hbool _
  · exact oblivious_leaf hident _
  · next span =>
      refine oblivious_skip.bind fun _ => (oblivious_enter span).bind fun _ => ?_
      refine (oblivious_expression h).bind fun e => oblivious_leave.bind fun _ => ?_
      exact (oblivious_expect _ _).bind fun _ => oblivious_complete (by simp [Reduction.Proper]) e
  · exact oblivious_unexpected _

theorem oblivious_applied (h : Oblivious deeper) (op : UnaryOp) (span : Span) :
    Oblivious (applied deeper op span) := by
  refine (oblivious_countOperator span).bind fun _ => (oblivious_enter span).bind fun _ => ?_
  exact h.bind fun e => oblivious_leave.bind fun _ => oblivious_complete (fun _ => rfl) _

theorem oblivious_unaryWith (h : Oblivious deeper) : Oblivious (unaryWith deeper) := by
  have hprimary : Reduction.Proper ⟨"unary", "primary"⟩ := fun _ => rfl
  refine oblivious_peek.bind fun next => ?_
  split
  · next span =>
      refine oblivious_skip.bind fun _ => oblivious_peek.bind fun next => ?_
      split
      · refine oblivious_skip.bind fun _ => (oblivious_reduce (by simp [Reduction.Proper])).bind fun _ => ?_
        exact oblivious_complete hprimary _
      · exact oblivious_applied h .neg span
  · next span => exact oblivious_skip.bind fun _ => oblivious_applied h .not span
  · exact (oblivious_primary h).bind fun e => oblivious_complete hprimary e

end

theorem oblivious_unary (room : Nat) : Oblivious (unary room) := by
  induction room with
  | zero => exact oblivious_unaryWith (oblivious_unexpected _)
  | succ room ih => exact oblivious_unaryWith ih

theorem oblivious_expr : Oblivious expr :=
  oblivious_expression (oblivious_unary nestingLimit)

/-- Behind its expression or label, a statement ends with a semicolon. -/
theorem oblivious_close {kind : String} (h : Reduction.Proper ⟨"stmt", kind⟩) (stmt : Stmt) :
    Oblivious (do
      semicolon
      reduce "stmt" kind
      return stmt) :=
  (oblivious_expect _ _).bind fun _ => oblivious_complete h stmt

theorem oblivious_statement : Oblivious statement := by
  refine oblivious_afresh.bind fun _ => oblivious_get (fun _ _ _ _ _ _ => rfl) fun cursor => ?_
  generalize cursor.tokens = tokens
  split
  · refine oblivious_skip.bind fun _ => oblivious_skip.bind fun _ => ?_
    exact oblivious_complete (by simp [Reduction.Proper]) _
  · refine oblivious_skip.bind fun _ => (oblivious_expect _ _).bind fun _ => oblivious_expr.bind fun value => ?_
    exact oblivious_close (by simp [Reduction.Proper]) _
  · refine oblivious_skip.bind fun _ => (oblivious_expectIdent _).bind fun name => ?_
    refine (oblivious_expect _ _).bind fun _ => oblivious_expr.bind fun value => ?_
    exact oblivious_close (by simp [Reduction.Proper]) _
  · refine oblivious_skip.bind fun _ => oblivious_expr.bind fun value => ?_
    exact oblivious_close (by simp [Reduction.Proper]) _
  · refine oblivious_skip.bind fun _ => (oblivious_expectIdent _).bind fun label => ?_
    exact oblivious_close (by simp [Reduction.Proper]) _
  · refine oblivious_skip.bind fun _ => oblivious_expr.bind fun cond => ?_
    refine (oblivious_expect _ _).bind fun _ => (oblivious_expectIdent _).bind fun label => ?_
    exact oblivious_close (by simp [Reduction.Proper]) _
  · refine oblivious_skip.bind fun _ => oblivious_expr.bind fun value => ?_
    exact oblivious_close (by simp [Reduction.Proper]) _
  · exact oblivious_unexpected _

theorem oblivious_statements (bound : Nat) : Oblivious (statements bound) := by
  induction bound with
  | zero => exact oblivious_pure []
  | succ bound ih =>
      refine oblivious_peek.bind fun next => ?_
      split
      · exact oblivious_pure []
      · refine oblivious_statement.bind fun stmt => ?_
        refine (oblivious_reduce (by simp [Reduction.Proper])).bind fun _ => ?_
        exact ih.bind fun rest => oblivious_pure (stmt :: rest)

end Parser

theorem Parser.Trace.recordAll_eq (reductions : List Reduction) (before : Array Reduction)
    (graph : GrammarGraph) : Trace.recordAll reductions ⟨before, graph⟩ =
      ⟨before ++ reductions.toArray, reductions.foldl GrammarGraph.record graph⟩ := by
  induction reductions generalizing before graph with
  | nil => simp [recordAll]
  | cons reduction reductions ih =>
      show recordAll reductions ⟨before.push reduction, graph.record reduction⟩ = _
      rw [ih]
      simp

namespace Reading

/-- A text has one outcome and one sequence of reductions, which is drawn in whatever graph there is. -/
theorem ofText_eq (text : String) : ∃ (ast : Except SyntaxError Ast) (reductions : Array Reduction),
    (∀ reduction ∈ reductions, reduction.Proper) ∧
    ∀ graph, ofText text graph = ⟨⟨reductions, graph.addAll reductions⟩, ast⟩ := by
  cases htext : TokenStream.ofText text with
  | error e =>
      refine ⟨.error e, #[], by simp, fun graph => ?_⟩
      rw [ofText, htext]
      rfl
  | ok stream =>
      obtain ⟨⟨outcome, tokens, depth, operators, reductions⟩, hproper, hway⟩ :=
        Parser.oblivious_statements stream.tokens.length stream.tokens stream.stop 0 0
      have htrace : ∀ graph, Parser.Trace.recordAll reductions { graph } =
          ⟨reductions.toArray, graph.addAll reductions.toArray⟩ := by
        intro graph
        rw [Parser.Trace.recordAll_eq, GrammarGraph.addAll]
        simp
      refine ⟨outcome.map fun stmts => ⟨stmts, stream.stop⟩, reductions.toArray, by simpa using hproper,
        fun graph => ?_⟩
      rw [ofText, htext, ← htrace graph]
      show ofTokens stream graph = _
      rw [ofTokens, hway { graph }]
      cases outcome <;> rfl

/-- The graph has no influence on what is read. -/
theorem ast_ofText (text : String) (graph graph' : GrammarGraph) :
    (ofText text graph).ast = (ofText text graph').ast := by
  obtain ⟨ast, reductions, -, h⟩ := ofText_eq text
  rw [h, h]

end Reading

end GotoLang
