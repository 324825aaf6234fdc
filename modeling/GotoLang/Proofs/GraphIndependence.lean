import GotoLang.Compilation
import GotoLang.Proofs.Parsing.Tracing

/-!
# Building does not depend on the graph

Two compilations build the same text. They work in the same session, but each has its own graph: drawn or not,
sequenced or not, with any counts, in a sink that may fail at any line. The parser takes the same way in both,
and so lowering is given the same tree. What it is also given is a session that knows how many edges were
drawn, and in this number alone the two sessions differ from then on.

The two runs are told step by step. They stay coupled: the same step succeeds in both with the same value, or
fails in both with the same error.
-/
namespace GotoLang

section
variable {ε σ α β : Type}

/-- Both succeeded with the same value or both failed with the same error, and their states are related. -/
inductive SameOutcome (R : σ → σ → Prop) : EStateM.Result ε σ α → EStateM.Result ε σ α → Prop where
  | ok {value : α} {first second : σ} (states : R first second) :
      SameOutcome R (.ok value first) (.ok value second)
  | error {fault : ε} {first second : σ} (states : R first second) :
      SameOutcome R (.error fault first) (.error fault second)

/-- From related states two computations have the same outcome. -/
def Coupled (R : σ → σ → Prop) (p q : EStateM ε σ α) : Prop :=
  ∀ first second, R first second → SameOutcome R (p first) (q second)

variable {R : σ → σ → Prop}

theorem coupled_pure (value : α) : Coupled R (pure value : EStateM ε σ α) (pure value) :=
  fun _ _ states => .ok states

theorem coupled_throw (fault : ε) : Coupled R (throw fault : EStateM ε σ α) (throw fault) :=
  fun _ _ states => .error states

theorem coupled_modify {f g : σ → σ} (h : ∀ first second, R first second → R (f first) (g second)) :
    Coupled R (modify f : EStateM ε σ PUnit) (modify g) :=
  fun first second states => .ok (h first second states)

theorem Coupled.bind {p q : EStateM ε σ β} {f g : β → EStateM ε σ α} (hp : Coupled R p q)
    (hf : ∀ value, Coupled R (f value) (g value)) : Coupled R (p >>= f) (q >>= g) := by
  intro first second states
  show SameOutcome R (EStateM.bind p f first) (EStateM.bind q g second)
  have hp := hp first second states
  rw [EStateM.bind, EStateM.bind]
  generalize p first = result at hp
  generalize q second = result' at hp
  cases hp with
  | ok states => exact hf _ _ _ states
  | error states => exact .error states

/-- What follows may look at the states if it is coupled for related ones. -/
theorem coupled_get {f g : σ → EStateM ε σ α}
    (h : ∀ first second, R first second → Coupled R (f first) (g second)) :
    Coupled R (get >>= f) (get >>= g) :=
  fun first second states => h first second states first second states

theorem Coupled.discard {p q : EStateM ε σ α} (hp : Coupled R p q) :
    Coupled R (Functor.discard p) (Functor.discard q) := by
  intro first second states
  show SameOutcome R (EStateM.map _ p first) (EStateM.map _ q second)
  have hp := hp first second states
  rw [EStateM.map, EStateM.map]
  generalize p first = result at hp
  generalize q second = result' at hp
  cases hp with
  | ok states => exact .ok states
  | error states => exact .error states

end

namespace Session

/-- The second session is the first one but for the number of edges. -/
def Redrawn (first second : Session) : Prop :=
  ∃ edges, second = { first with stats := { first.stats with graphEdges := edges } }

theorem coupled_onBuffer {α : Type} (action : EStateM EmissionError EmissionBuffer α) :
    Coupled Redrawn (onBuffer action) (onBuffer action) := by
  rintro ⟨buffer, labels, stats, journal⟩ _ ⟨edges, rfl⟩
  rw [onBuffer, onBuffer]
  cases action buffer with
  | error e buffer => exact .error ⟨edges, rfl⟩
  | ok value buffer => exact .ok ⟨edges, rfl⟩

theorem coupled_onLabels {α : Type} (action : EStateM EmissionError LabelTable α) :
    Coupled Redrawn (onLabels action) (onLabels action) := by
  rintro ⟨buffer, labels, stats, journal⟩ _ ⟨edges, rfl⟩
  rw [onLabels, onLabels]
  cases action labels with
  | error e labels => exact .error ⟨edges, rfl⟩
  | ok value labels => exact .ok ⟨edges, rfl⟩

/-- Counting anything else does not look at the edges. -/
theorem coupled_count {change : Stats → Stats}
    (h : ∀ stats edges, change { stats with graphEdges := edges } = { change stats with graphEdges := edges }) :
    Coupled Redrawn (count change) (count change) := by
  refine coupled_modify ?_
  rintro session _ ⟨edges, rfl⟩
  exact ⟨edges, by rw [h]⟩

theorem coupled_note (event : Event) : Coupled Redrawn (note event) (note event) := by
  refine coupled_modify ?_
  rintro session _ ⟨edges, rfl⟩
  exact ⟨edges, rfl⟩

theorem coupled_emit (op : Op) (line : Nat) : Coupled Redrawn (emit op line) (emit op line) := by
  refine (coupled_onBuffer _).bind fun addr => (coupled_count fun _ _ => rfl).bind fun _ => ?_
  exact (coupled_note _).bind fun _ => coupled_pure addr

theorem coupled_bind (label : String) (span : Span) : Coupled Redrawn (bind label span) (bind label span) := by
  refine coupled_get ?_
  rintro session _ ⟨_, rfl⟩
  refine (coupled_onLabels _).bind fun _ => (coupled_count fun _ _ => rfl).bind fun _ => ?_
  exact (coupled_note _).bind fun _ => coupled_pure _

theorem coupled_await (slot : Addr) (label : String) (span : Span) :
    Coupled Redrawn (await slot label span) (await slot label span) :=
  (coupled_onLabels _).bind fun _ => (coupled_count fun _ _ => rfl).bind fun _ => coupled_note _

theorem coupled_emitTransfer (make : Addr → Op) (label : String) (span : Span) :
    Coupled Redrawn (emitTransfer make label span) (emitTransfer make label span) := by
  refine coupled_get ?_
  rintro session _ ⟨_, rfl⟩
  cases session.labels.lookup label with
  | some target => exact (coupled_count fun _ _ => rfl).bind fun _ => coupled_emit _ _
  | none =>
      refine (coupled_emit _ _).bind fun slot => ?_
      exact (coupled_await slot label span).bind fun _ => coupled_pure slot

theorem coupled_finish (slots : Array Variable) : Coupled Redrawn (finish slots) (finish slots) := by
  rintro session _ ⟨edges, rfl⟩
  rw [finish, finish]
  cases session.labels.resolve session.buffer with
  | error e => exact .error ⟨edges, rfl⟩
  | ok resolved => exact .ok ⟨edges, rfl⟩

end Session

namespace Lowering

def State.Redrawn (first second : State) : Prop :=
  first.session.Redrawn second.session ∧ first.symbols = second.symbols

section
variable {α : Type}

theorem coupled_emission {action : Emit α} (h : Coupled Session.Redrawn action action) :
    Coupled State.Redrawn (emission action) (emission action) := by
  rintro ⟨session, symbols⟩ ⟨session', _⟩ ⟨hsession, rfl⟩
  have h := h session session' hsession
  rw [emission, emission]
  generalize action session = result at h
  generalize action session' = result' at h
  cases h with
  | ok states => exact .ok ⟨states, rfl⟩
  | error states => exact .error ⟨states, rfl⟩

theorem coupled_check (outcome : Except TypingError α) :
    Coupled State.Redrawn (check outcome) (check outcome) := by
  cases outcome with
  | ok value => exact coupled_pure value
  | error e => exact coupled_throw _

end

theorem coupled_emit (op : Op) (span : Span) : Coupled State.Redrawn (emit op span) (emit op span) :=
  (coupled_emission (Session.coupled_emit op span.line)).discard

theorem coupled_transfer (make : Addr → Op) (label : String) (span : Span) :
    Coupled State.Redrawn (Functor.discard (emission (Session.emitTransfer make label span)))
      (Functor.discard (emission (Session.emitTransfer make label span))) :=
  (coupled_emission (Session.coupled_emitTransfer make label span)).discard

theorem coupled_lookup (name : String) (span : Span) :
    Coupled State.Redrawn (lookup name span) (lookup name span) := by
  refine coupled_get ?_
  rintro ⟨_, symbols⟩ ⟨_, _⟩ ⟨-, rfl⟩
  exact coupled_check (symbols.lookup name span)

theorem coupled_declare (name : String) (ty : Ty) (span : Span) :
    Coupled State.Redrawn (declare name ty span) (declare name ty span) := by
  rintro ⟨session, symbols⟩ ⟨session', _⟩ ⟨hsession, rfl⟩
  rw [declare, naming, naming]
  cases SymbolTable.declare name ty span symbols with
  | ok symbol symbols => exact .ok ⟨hsession, rfl⟩
  | error e symbols => exact .error ⟨hsession, rfl⟩

theorem coupled_expr (e : Expr) : Coupled State.Redrawn (expr e) (expr e) := by
  induction e with
  | int value span => exact (coupled_emit _ _).bind fun _ => coupled_pure _
  | bool value span => exact (coupled_emit _ _).bind fun _ => coupled_pure _
  | var name span =>
      refine (coupled_lookup name span).bind fun symbol => ?_
      exact (coupled_emit _ _).bind fun _ => coupled_pure symbol.ty
  | unary op operand span ih =>
      refine ih.bind fun ty => (coupled_check _).bind fun _ => ?_
      exact (coupled_emit _ _).bind fun _ => coupled_pure op.ty
  | binary op lhs rhs span ihl ihr =>
      refine ihl.bind fun lhsTy => ihr.bind fun rhsTy => (coupled_check _).bind fun ty => ?_
      exact (coupled_emit _ _).bind fun _ => coupled_pure ty

theorem coupled_stmt (s : Stmt) : Coupled State.Redrawn (stmt s) (stmt s) := by
  cases s with
  | label name span => exact (coupled_emission (Session.coupled_bind name span)).discard
  | declare name value span =>
      refine (coupled_expr value).bind fun ty => ?_
      exact (coupled_declare name ty span).bind fun symbol => coupled_emit _ _
  | assign name value span =>
      refine (coupled_lookup name span).bind fun symbol => (coupled_expr value).bind fun ty => ?_
      exact (coupled_check _).bind fun _ => coupled_emit _ _
  | print value span => exact (coupled_expr value).bind fun ty => coupled_emit _ _
  | goto label span => exact coupled_transfer .jump label span
  | ifGoto cond label span =>
      refine (coupled_expr cond).bind fun ty => (coupled_check _).bind fun _ => ?_
      exact coupled_transfer .jumpIf label span
  | exit value span =>
      exact (coupled_expr value).bind fun ty => (coupled_check _).bind fun _ => coupled_emit _ _

theorem coupled_stmts (list : List Stmt) : Coupled State.Redrawn (stmts list) (stmts list) := by
  induction list with
  | nil => exact coupled_pure ()
  | cons s rest ih => exact (coupled_stmt s).bind fun _ => ih

theorem coupled_program (ast : Ast) : Coupled State.Redrawn (program ast) (program ast) := by
  refine (coupled_stmts ast.stmts).bind fun _ => ?_
  refine (coupled_emit _ _).bind fun _ => (coupled_emit _ _).bind fun _ => coupled_get ?_
  rintro ⟨_, symbols⟩ ⟨_, _⟩ ⟨-, rfl⟩
  exact coupled_emission (Session.coupled_finish symbols.slots)

end Lowering

namespace Compilation

/-- The sessions of two compilations differ in the number of edges at most. -/
def SameWork (first second : Compilation) : Prop :=
  first.session.Redrawn second.session

/-- The two logs need not say the same. -/
theorem coupled_log (level level' : Log.Level) (source source' : Log.Source) (text text' : String) :
    Coupled SameWork (log level source text) (log level' source' text') :=
  coupled_modify fun _ _ states => states

theorem coupled_finishGraph (graph graph' : GrammarGraph) :
    Coupled SameWork (finishGraph graph) (finishGraph graph') := by
  refine (coupled_modify ?_).bind fun _ => coupled_get fun c c' _ => coupled_modify ?_
  · exact fun _ _ states => states
  · -- From here on the two sessions have their own numbers of edges.
    rintro ⟨_, _, _, _, session⟩ ⟨_, _, _, _, _⟩ ⟨_, rfl⟩
    exact ⟨c'.graph.steps, rfl⟩

theorem coupled_lower (ast : Ast) : Coupled SameWork (lower ast) (lower ast) := by
  intro c c' states
  have h := Lowering.coupled_program ast { session := c.session } { session := c'.session } ⟨states, rfl⟩
  rw [lower, lower, Ast.lower, Ast.lower]
  generalize Lowering.program ast { session := c.session } = result at h
  generalize Lowering.program ast { session := c'.session } = result' at h
  cases h with
  | ok states => exact .ok states.1
  | error states => exact .error states.1

theorem coupled_build (text : String) : Coupled SameWork (build text) (build text) := by
  refine coupled_get fun c c' _ => (coupled_log _ _ _ _ _ _).bind fun _ => coupled_get fun c c' _ => ?_
  dsimp only
  rw [Reading.ast_ofText text c'.graph c.graph]
  cases (Reading.ofText text c.graph).ast with
  | error e => exact (coupled_finishGraph _ _).bind fun _ => coupled_throw _
  | ok ast =>
      refine (coupled_log _ _ _ _ _ _).bind fun _ => (coupled_finishGraph _ _).bind fun _ => ?_
      refine (coupled_log _ _ _ _ _ _).bind fun _ => (coupled_lower ast).bind fun program => ?_
      exact (coupled_log _ _ _ _ _ _).bind fun _ => coupled_pure program

/-- Whatever graph a compilation was asked for, whichever it was given instead and whatever the surroundings
make of it, a text is read in the same way and built into the same program or refused for the same reason,
with the same figures but for the number of edges. -/
theorem build_ignores_graph (text : String) (c : Compilation) (wanted : Option GraphConfig)
    (graph : GrammarGraph) (graphPlace : Option Files.Place) (host : Host) :
    let c' : Compilation := { c with config := { c.config with graph := wanted }, graph, graphPlace, host }
    (Reading.ofText text c.graph).ast = (Reading.ofText text c'.graph).ast ∧
      SameOutcome SameWork (build text c) (build text c') := by
  intro c'
  exact ⟨Reading.ast_ofText text c.graph graph, coupled_build text c c' ⟨c.session.stats.graphEdges, rfl⟩⟩

end Compilation

end GotoLang
