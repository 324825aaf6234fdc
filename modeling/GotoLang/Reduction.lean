/-!
# Grammar reductions

Reading a program bottom-up completes one nonterminal after the other. A reduction names the completed
nonterminal and its principal child, which is a nonterminal, a kind of statement or a class of tokens.
-/
namespace GotoLang

structure Reduction where
  parent : String
  child : String
deriving DecidableEq

end GotoLang
