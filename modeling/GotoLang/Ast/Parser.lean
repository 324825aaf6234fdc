import GotoLang.Ast
import GotoLang.GrammarGraph
import GotoLang.Token.Lexer

/-!
# From tokens to syntax trees

Expressions have five levels of binary operators above the unary ones: `or`, `and`, one comparison,
sums and terms. All but the comparison associate to the left. The parser records every reduction it
completes, also those before a fault, and draws it in the grammar graph if that is open.

Two limits keep trees small. Parentheses and unary operators nest at most `nestingLimit` deep, which is
counted on the way in and taken back on the way out. A statement has at most `operatorLimit` operators,
where a minus sign directly before a literal is part of the literal.
-/
namespace GotoLang

namespace Parser

structure Trace where
  reductions : Array Reduction := #[]
  graph : GrammarGraph

def Trace.record (reduction : Reduction) : Trace → Trace
  | ⟨reductions, graph⟩ => ⟨reductions.push reduction, graph.record reduction⟩

/-- What is left to read, how deep the parser is, the operators counted in this statement, and the trace
so far. -/
structure Cursor where
  tokens : List Token
  stop : Span
  depth : Nat
  operators : Nat
  trace : Trace

/-- A parser moves the cursor and yields a value or the first fault. -/
abbrev Parse := EStateM SyntaxError Cursor

def peek : Parse (Option Token) := do
  return (← get).tokens.head?

def skip : Parse Unit :=
  modify fun cursor => { cursor with tokens := cursor.tokens.tail }

def unexpected {α : Type} (wanted : Expectation) : Parse α := do
  match ← peek with
  | some token => throw ⟨token.span, .expected wanted (some token.kind)⟩
  | none => throw ⟨(← get).stop, .expected wanted none⟩

def expect (kind : Token.Kind) (wanted : Expectation) : Parse Unit := do
  if (← peek).map Token.kind = some kind then skip else unexpected wanted

def expectIdent (wanted : Expectation) : Parse String := do
  match ← peek with
  | some ⟨.ident name, _⟩ => skip; return name
  | _ => unexpected wanted

def reduce (parent child : String) : Parse Unit :=
  modify fun cursor => { cursor with trace := cursor.trace.record ⟨parent, child⟩ }

def enter (span : Span) : Parse Unit := do
  modify fun cursor => { cursor with depth := cursor.depth + 1 }
  if (← get).depth > nestingLimit then throw ⟨span, .nestingTooDeep⟩

def leave : Parse Unit :=
  modify fun cursor => { cursor with depth := cursor.depth - 1 }

def countOperator (span : Span) : Parse Unit := do
  modify fun cursor => { cursor with operators := cursor.operators + 1 }
  if (← get).operators > operatorLimit then throw ⟨span, .tooManyOperators⟩

def orOp? : Token.Kind → Option BinaryOp
  | .keyword .orWord => some (.logic .or)
  | _ => none

def andOp? : Token.Kind → Option BinaryOp
  | .keyword .andWord => some (.logic .and)
  | _ => none

def cmpOp? : Token.Kind → Option BinaryOp
  | .punct .equal => some (.cmp .eq)
  | .punct .notEqual => some (.cmp .ne)
  | .punct .less => some (.cmp .lt)
  | .punct .lessEqual => some (.cmp .le)
  | .punct .greater => some (.cmp .gt)
  | .punct .greaterEqual => some (.cmp .ge)
  | _ => none

def sumOp? : Token.Kind → Option BinaryOp
  | .punct .plus => some (.arith .add)
  | .punct .minus => some (.arith .sub)
  | _ => none

def termOp? : Token.Kind → Option BinaryOp
  | .punct .star => some (.arith .mul)
  | .punct .slash => some (.arith .div)
  | .punct .percent => some (.arith .rem)
  | _ => none

def operator? (op? : Token.Kind → Option BinaryOp) : Parse (Option (BinaryOp × Span)) := do
  return (← peek).bind fun token => (op? token.kind).map fun op => (op, token.span)

/-- Extend `lhs` to the right by up to `bound` operators of one level. An operator counts once its
right operand is read. -/
def chain (op? : Token.Kind → Option BinaryOp) (operand : Parse Expr) : Nat → Expr → Parse Expr
  | 0, lhs => pure lhs
  | bound + 1, lhs => do
    match ← operator? op? with
    | none => return lhs
    | some (op, span) =>
      skip
      let rhs ← operand
      countOperator span
      chain op? operand bound (.binary op lhs rhs span)

/-- One level of operators, any number of them. Each is counted, so the one behind the limit is a
fault and no chain goes on after it. -/
def level (parent child : String) (op? : Token.Kind → Option BinaryOp) (operand : Parse Expr) :
    Parse Expr := do
  let lhs ← operand
  let e ← chain op? operand (operatorLimit + 1) lhs
  reduce parent child
  return e

/-- Comparisons do not associate: there is at most one. -/
def comparison (operand : Parse Expr) : Parse Expr := do
  let lhs ← operand
  let e ← chain cmpOp? operand 1 lhs
  reduce "cmp" "sum"
  return e

def expression (unary : Parse Expr) : Parse Expr := do
  let e ← level "or" "and" orOp? <|
    level "and" "cmp" andOp? <|
    comparison <|
    level "sum" "term" sumOp? <|
    level "term" "unary" termOp? unary
  reduce "expr" "or"
  return e

def largestLiteral : Nat := 9223372036854775807

def primary (deeper : Parse Expr) : Parse Expr := do
  match ← peek with
  | some ⟨.int value, span⟩ =>
    if value > largestLiteral then throw ⟨span, .literalOutOfRange (toString value)⟩
    skip
    reduce "primary" "INT"
    return .int (Int64.ofNat value) span
  | some ⟨.keyword .trueWord, span⟩ =>
    skip
    reduce "primary" "BOOL"
    return .bool true span
  | some ⟨.keyword .falseWord, span⟩ =>
    skip
    reduce "primary" "BOOL"
    return .bool false span
  | some ⟨.ident name, span⟩ =>
    skip
    reduce "primary" "IDENT"
    return .var name span
  | some ⟨.punct .leftParen, span⟩ =>
    skip
    enter span
    let inner ← expression deeper
    leave
    expect (.punct .rightParen) .rightParen
    reduce "primary" "expr"
    return inner
  | _ => unexpected .expression

/-- The operand of a unary operator, which is one level deeper. -/
def applied (deeper : Parse Expr) (op : UnaryOp) (span : Span) : Parse Expr := do
  countOperator span
  enter span
  let operand ← deeper
  leave
  reduce "unary" "unary"
  return .unary op operand span

/-- A unary expression, given how to read one that is nested in it. -/
def unaryWith (deeper : Parse Expr) : Parse Expr := do
  match ← peek with
  | some ⟨.punct .minus, span⟩ =>
    skip
    match ← peek with
    | some ⟨.int value, _⟩ =>
      skip
      reduce "primary" "INT"
      reduce "unary" "primary"
      return .int (Int64.ofInt (-value)) span
    | _ => applied deeper .neg span
  | some ⟨.keyword .notWord, span⟩ =>
    skip
    applied deeper .not span
  | _ =>
    let e ← primary deeper
    reduce "unary" "primary"
    return e

/-- A unary expression with so many levels of nesting left. Where none is left, what is nested is not read:
entering it is a fault. -/
def unary : Nat → Parse Expr
  | 0 => unaryWith (unexpected .expression)
  | room + 1 => unaryWith (unary room)

def expr : Parse Expr :=
  expression (unary nestingLimit)

def semicolon : Parse Unit :=
  expect (.punct .semi) .semicolon

def statement : Parse Stmt := do
  modify fun cursor => { cursor with operators := 0 }
  match (← get).tokens with
  | ⟨.ident name, span⟩ :: ⟨.punct .colon, _⟩ :: _ =>
    skip
    skip
    reduce "stmt" "label"
    return .label name span
  | ⟨.ident name, span⟩ :: _ =>
    skip
    expect (.punct .assign) .assignOrColon
    let value ← expr
    semicolon
    reduce "stmt" "assign"
    return .assign name value span
  | ⟨.keyword .letWord, span⟩ :: _ =>
    skip
    let name ← expectIdent .declaredName
    expect (.punct .assign) .assign
    let value ← expr
    semicolon
    reduce "stmt" "let"
    return .declare name value span
  | ⟨.keyword .printWord, span⟩ :: _ =>
    skip
    let value ← expr
    semicolon
    reduce "stmt" "print"
    return .print value span
  | ⟨.keyword .gotoWord, span⟩ :: _ =>
    skip
    let label ← expectIdent .labelName
    semicolon
    reduce "stmt" "goto"
    return .goto label span
  | ⟨.keyword .ifWord, span⟩ :: _ =>
    skip
    let cond ← expr
    expect (.keyword .gotoWord) .gotoWord
    let label ← expectIdent .labelName
    semicolon
    reduce "stmt" "if"
    return .ifGoto cond label span
  | ⟨.keyword .exitWord, span⟩ :: _ =>
    skip
    let value ← expr
    semicolon
    reduce "stmt" "exit"
    return .exit value span
  | _ => unexpected .statement

/-- Statements up to the end of the text. Each takes a token, so the tokens left bound them. -/
def statements : Nat → Parse (List Stmt)
  | 0 => pure []
  | bound + 1 => do
    if (← peek).isNone then return []
    let stmt ← statement
    reduce "program" "stmt"
    return stmt :: (← statements bound)

end Parser

/-- What reading a text comes to: the tree or the first fault, and the trace of the way there. -/
structure Reading extends Parser.Trace where
  ast : Except SyntaxError Ast

def Reading.ofTokens (stream : TokenStream) (graph : GrammarGraph := .closed true) : Reading :=
  match Parser.statements stream.tokens.length ⟨stream.tokens, stream.stop, 0, 0, { graph }⟩ with
  | .ok stmts cursor => ⟨cursor.trace, .ok ⟨stmts, stream.stop⟩⟩
  | .error e cursor => ⟨cursor.trace, .error e⟩

/-- Read a text as a program, with a graph to draw the reductions in. -/
def Reading.ofText (text : String) (graph : GrammarGraph := .closed true) : Reading :=
  match TokenStream.ofText text with
  | .ok stream => ofTokens stream graph
  | .error e => ⟨{ graph }, .error e⟩

end GotoLang
