import GotoLang.Reduction
import GotoLang.Sink

/-!
# The graph of grammar reductions

Every reduction becomes an edge of a Graphviz digraph, from the completed nonterminal to its principal
child. In a sequenced graph a name carries the number of times it was completed so far; a completed
nonterminal is counted before its own edge is drawn. The graph is written to a sink as it grows. A
sink that fails closes it, and a closed graph still counts its edges.
-/
namespace GotoLang

structure GrammarGraph.Edge where
  source : String
  target : String
  step : Nat
deriving DecidableEq

def GrammarGraph.Edge.text (edge : GrammarGraph.Edge) : String :=
  s!"\"{edge.source}\" -> \"{edge.target}\" [label=\"{edge.step}\"];"

structure GrammarGraph where
  sink : Sink := {}
  isOpen : Bool := false
  sequenced : Bool := true
  counts : List (String × Nat) := []
  steps : Nat := 0

namespace GrammarGraph

def closed (sequenced : Bool) : GrammarGraph := { sequenced }

def header : String :=
  "digraph grammar \x7b\n\"program\" [style=filled, fillcolor=lightgrey];\n"

def opened (sequenced : Bool) (sink : Sink) : GrammarGraph :=
  let (sink, ok) := sink.print header
  { sink, sequenced, isOpen := ok }

def count (graph : GrammarGraph) (name : String) : Nat :=
  (graph.counts.lookup name).getD 0

def bump (name : String) : List (String × Nat) → List (String × Nat)
  | [] => [(name, 1)]
  | (other, n) :: rest => if other = name then (other, n + 1) :: rest else (other, n) :: bump name rest

/-- Draw a line if the graph is open; a sink that fails closes it. -/
def draw (graph : GrammarGraph) (line : String) : GrammarGraph :=
  if graph.isOpen then
    let (sink, ok) := graph.sink.print (line ++ "\n")
    { graph with sink, isOpen := ok }
  else graph

def add (graph : GrammarGraph) (reduction : Reduction) : Edge × GrammarGraph :=
  let graph := { graph with steps := graph.steps + 1 }
  if graph.sequenced then
    let graph := { graph with counts := bump reduction.parent graph.counts }
    let edge : Edge :=
      { source := s!"{reduction.parent}-{graph.count reduction.parent}"
        target := s!"{reduction.child}-{graph.count reduction.child}"
        step := graph.steps }
    (edge, graph.draw edge.text)
  else
    let edge : Edge := ⟨reduction.parent, reduction.child, graph.steps⟩
    (edge, graph.draw edge.text)

/-- Add the edge of a reduction if the graph is open. -/
def record (graph : GrammarGraph) (reduction : Reduction) : GrammarGraph :=
  if graph.isOpen then (graph.add reduction).2 else graph

/-- Add the edges of reductions, as long as the graph is open. -/
def addAll (graph : GrammarGraph) (reductions : Array Reduction) : GrammarGraph :=
  reductions.foldl record graph

/-- Draw the closing brace and close the graph; a closed one stays as it is. -/
def finish (graph : GrammarGraph) : GrammarGraph :=
  { graph.draw "\x7d" with isOpen := false }

end GrammarGraph

end GotoLang
