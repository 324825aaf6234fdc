import GotoLang.Span

/-!
# Tokens

The lexical units of the language: integer literals without a sign, identifiers, reserved words and
punctuation. Every reserved word and every punctuation mark has one spelling, its `text`.
-/
namespace GotoLang

inductive Keyword where
  | letWord | printWord | gotoWord | ifWord | exitWord
  | trueWord | falseWord | andWord | orWord | notWord
deriving DecidableEq

namespace Keyword

def text : Keyword → String
  | letWord => "let"
  | printWord => "print"
  | gotoWord => "goto"
  | ifWord => "if"
  | exitWord => "exit"
  | trueWord => "true"
  | falseWord => "false"
  | andWord => "and"
  | orWord => "or"
  | notWord => "not"

def all : List Keyword :=
  [letWord, printWord, gotoWord, ifWord, exitWord, trueWord, falseWord, andWord, orWord, notWord]

def ofText? (word : String) : Option Keyword :=
  all.find? (·.text = word)

end Keyword

inductive Punct where
  | colon | semi | assign | plus | minus | star | slash | percent
  | leftParen | rightParen | equal | notEqual | less | lessEqual | greater | greaterEqual
deriving DecidableEq

def Punct.text : Punct → String
  | colon => ":"
  | semi => ";"
  | assign => "="
  | plus => "+"
  | minus => "-"
  | star => "*"
  | slash => "/"
  | percent => "%"
  | leftParen => "("
  | rightParen => ")"
  | equal => "=="
  | notEqual => "!="
  | less => "<"
  | lessEqual => "<="
  | greater => ">"
  | greaterEqual => ">="

/-- What a token is, apart from where it stands. -/
inductive Token.Kind where
  | int (value : Nat)
  | ident (name : String)
  | keyword (word : Keyword)
  | punct (mark : Punct)
deriving DecidableEq

/-- How diagnostics name a token. -/
def Token.Kind.describe : Token.Kind → String
  | int value => s!"integer `{value}`"
  | ident name => s!"identifier `{name}`"
  | keyword word => s!"`{word.text}`"
  | punct mark => s!"`{mark.text}`"

structure Token where
  kind : Token.Kind
  span : Span
deriving DecidableEq

/-- The tokens of a text, and the position where the text ends. -/
structure TokenStream where
  tokens : List Token
  stop : Span
deriving DecidableEq

end GotoLang
