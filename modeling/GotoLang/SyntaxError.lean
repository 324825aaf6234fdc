import GotoLang.Token

/-!
# Faults in the written form of a program

Each fault is a cause and the position it is reported at; `message` is the only place where its
wording is fixed.
-/
namespace GotoLang

inductive Expectation where
  | statement | expression | semicolon | assign | assignOrColon | rightParen | gotoWord
  | declaredName | labelName
deriving DecidableEq

def Expectation.text : Expectation → String
  | statement => "statement"
  | expression => "expression"
  | semicolon => "`;`"
  | assign => "`=`"
  | assignOrColon => "`=` or `:` after identifier"
  | rightParen => "`)`"
  | gotoWord => "`goto`"
  | declaredName => "variable name after `let`"
  | labelName => "label after `goto`"

/-- Deepest nesting of parentheses and unary operators in an expression. -/
def nestingLimit : Nat := 128

/-- Most operators in the expression of one statement. -/
def operatorLimit : Nat := 1024

/-- Causes of a syntax error. In `expected`, `none` stands for the end of the text. -/
inductive SyntaxFault where
  | unexpectedCharacter (c : Char)
  | literalOutOfRange (digits : String)
  | expected (wanted : Expectation) (found : Option Token.Kind)
  | nestingTooDeep
  | tooManyOperators
deriving DecidableEq

def SyntaxFault.text : SyntaxFault → String
  | unexpectedCharacter c => s!"unexpected character `{c}`"
  | literalOutOfRange digits => s!"integer literal `{digits}` is out of range"
  | expected wanted none => s!"expected {wanted.text}, found end of input"
  | expected wanted (some kind) => s!"expected {wanted.text}, found {kind.describe}"
  | nestingTooDeep => s!"expression nests deeper than {nestingLimit} levels"
  | tooManyOperators => s!"expression has more than {operatorLimit} operators"

structure SyntaxError where
  span : Span
  fault : SyntaxFault
deriving DecidableEq

def SyntaxError.message (e : SyntaxError) : String :=
  s!"{e.span.text}: syntax error: {e.fault.text}"

end GotoLang
