import Mathlib.Data.List.Induction
import Mathlib.Data.List.Nodup
import Mathlib.Logic.Relation
import GotoLang.Proofs.Parsing.Tracing

/-!
# The shape of a sequenced grammar graph

In a sequenced graph the edge of a reduction starts at the name of the completed nonterminal and the number
of its completions, this one included. So no two edges start at the same node. The edge leads to the
principal child with the number of completions that it has by then. If that is zero the child was never
completed, and otherwise its last completion is the start of an earlier edge.

There is one exception. A nonterminal that is its own principal child is counted before its number is looked
up, so its edge leads back to where it starts and not to the child. The parser does this for unary
operators and nowhere else. Apart from these loops the graph has no cycles.
-/
namespace GotoLang

namespace GrammarGraph

/-- The edges that a graph gets for reductions, as long as it is open. -/
def edges (graph : GrammarGraph) : List Reduction → List Edge
  | [] => []
  | reduction :: rest =>
    if graph.isOpen then (graph.add reduction).1 :: edges (graph.add reduction).2 rest else []

/-- The node of a completion of a name. -/
def node (name : String) (number : Nat) : String :=
  s!"{name}-{number}"

/-- How often a name was completed. -/
def completions (name : String) (reductions : List Reduction) : Nat :=
  reductions.countP (·.parent = name)

/-- The edge of a reduction behind others. -/
def edgeAfter (before : List Reduction) (reduction : Reduction) : Edge where
  source := node reduction.parent (completions reduction.parent before + 1)
  target := node reduction.child (completions reduction.child (before ++ [reduction]))
  step := before.length + 1

/-- The edges of reductions behind others. -/
def edgesAfter (before : List Reduction) : List Reduction → List Edge
  | [] => []
  | reduction :: rest => edgeAfter before reduction :: edgesAfter (before ++ [reduction]) rest

theorem dash_notMem_toDigits (n : Nat) : '-' ∉ Nat.toDigits 10 n := by
  intro hmem
  have hdigit := Nat.isDigit_of_mem_toDigits (by decide) (by decide) hmem
  cases hdigit

/-- The last occurrence of a character splits a list in one way only. -/
theorem split_last_unique {c : Char} {front front' back back' : List Char}
    (h : front ++ c :: back = front' ++ c :: back') (hback : c ∉ back) (hback' : c ∉ back') :
    front = front' ∧ back = back' := by
  rcases List.append_eq_append_iff.mp h with ⟨middle, rfl, hrest⟩ | ⟨middle, rfl, hrest⟩
  · cases middle with
    | nil => simpa using hrest
    | cons first middle =>
        obtain ⟨-, rfl⟩ := List.cons.inj hrest
        simp at hback
  · cases middle with
    | nil => simpa using hrest.symm
    | cons first middle =>
        obtain ⟨-, rfl⟩ := List.cons.inj hrest
        simp at hback'

theorem node_inj {name name' : String} {number number' : Nat} (h : node name number = node name' number') :
    name = name' ∧ number = number' := by
  have hlist : ∀ (name : String) (number : Nat),
      (node name number).toList = name.toList ++ '-' :: Nat.toDigits 10 number := by
    intro name number
    show (name ++ "-" ++ number.repr).toList = _
    simp [Nat.toList_repr]
  have h := congrArg String.toList h
  rw [hlist, hlist] at h
  obtain ⟨hname, hdigits⟩ := split_last_unique h (dash_notMem_toDigits number) (dash_notMem_toDigits number')
  have hnumber := congrArg (Nat.ofDigitChars 10 · 0) hdigits
  simp only [Nat.ofDigitChars_ten_toDigits] at hnumber
  exact ⟨String.toList_inj.mp hname, hnumber⟩

theorem completions_snoc (name : String) (before : List Reduction) (reduction : Reduction) :
    completions name (before ++ [reduction]) =
      completions name before + if reduction.parent = name then 1 else 0 := by
  simp [completions, List.countP_append, List.countP_cons]

theorem lookup_bump (name other : String) (counts : List (String × Nat)) :
    ((bump name counts).lookup other).getD 0 =
      (counts.lookup other).getD 0 + if name = other then 1 else 0 := by
  induction counts with
  | nil =>
      by_cases h : other = name
      · simp [bump, h]
      · simp [bump, List.lookup_cons, beq_false_of_ne h, Ne.symm h]
  | cons entry counts ih =>
      obtain ⟨key, n⟩ := entry
      rw [bump]
      split
      · next hkey =>
          subst hkey
          by_cases h : other = key
          · simp [h]
          · simp [List.lookup_cons, beq_false_of_ne h, Ne.symm h]
      · next hkey =>
          by_cases h : other = key
          · subst h
            simp [Ne.symm hkey]
          · simpa [List.lookup_cons, beq_false_of_ne h] using ih

/-- A sequenced graph has counted some reductions. -/
structure Counted (graph : GrammarGraph) (before : List Reduction) : Prop where
  sequenced : graph.sequenced = true
  counts : ∀ name, graph.count name = completions name before
  steps : graph.steps = before.length

theorem counted_opened (sink : Sink) : (opened true sink).Counted [] :=
  ⟨rfl, fun _ => rfl, rfl⟩

section
variable {graph : GrammarGraph} {before : List Reduction}

theorem Counted.draw (h : graph.Counted before) (line : String) : (graph.draw line).Counted before := by
  unfold GrammarGraph.draw
  split
  · exact ⟨h.sequenced, h.counts, h.steps⟩
  · exact h

/-- One more reduction is counted and gets its edge. -/
theorem Counted.add (h : graph.Counted before) (reduction : Reduction) :
    (graph.add reduction).1 = edgeAfter before reduction ∧
      (graph.add reduction).2.Counted (before ++ [reduction]) := by
  -- The graph before the line is drawn: counted, but not written.
  let next : GrammarGraph :=
    { graph with steps := graph.steps + 1, counts := bump reduction.parent graph.counts }
  have hnext : next.Counted (before ++ [reduction]) := by
    refine ⟨h.sequenced, fun name => ?_, by simp [next, h.steps]⟩
    rw [completions_snoc, ← h.counts name]
    exact lookup_bump reduction.parent name graph.counts
  have hadd : graph.add reduction =
      ({ source := node reduction.parent (next.count reduction.parent)
         target := node reduction.child (next.count reduction.child)
         step := next.steps },
       next.draw (Edge.text
        { source := node reduction.parent (next.count reduction.parent)
          target := node reduction.child (next.count reduction.child)
          step := next.steps })) := by
    unfold GrammarGraph.add
    exact if_pos h.sequenced
  rw [hadd]
  refine ⟨?_, hnext.draw _⟩
  rw [edgeAfter, hnext.counts, hnext.counts, hnext.steps, completions_snoc reduction.parent]
  simp

/-- A graph that closes on the way has the first edges only. -/
theorem Counted.first_edges (h : graph.Counted before) (rest : List Reduction) :
    graph.edges rest <+: edgesAfter before rest := by
  induction rest generalizing graph before with
  | nil => exact List.prefix_rfl
  | cons reduction rest ih =>
      rw [edges]
      split
      · obtain ⟨hedge, hcounted⟩ := h.add reduction
        rw [hedge, edgesAfter, List.cons_prefix_cons]
        exact ⟨rfl, ih hcounted⟩
      · exact List.nil_prefix

end

theorem edges_of_closed {graph : GrammarGraph} (h : graph.isOpen = false) (reductions : List Reduction) :
    graph.edges reductions = [] := by
  cases reductions with
  | nil => rfl
  | cons reduction rest => rw [edges, h]; rfl

theorem steps_add (graph : GrammarGraph) (reduction : Reduction) :
    (graph.add reduction).2.steps = graph.steps + 1 := by
  have hdraw : ∀ (graph : GrammarGraph) (line : String), (graph.draw line).steps = graph.steps := by
    intro graph line
    unfold GrammarGraph.draw
    split <;> rfl
  unfold GrammarGraph.add
  dsimp only
  split <;> exact hdraw _ _

/-- A graph counts the edges that it gets. -/
theorem steps_addAll (graph : GrammarGraph) (reductions : List Reduction) :
    (reductions.foldl record graph).steps = graph.steps + (graph.edges reductions).length := by
  induction reductions generalizing graph with
  | nil => rfl
  | cons reduction rest ih =>
      rw [List.foldl_cons, ih, record, edges]
      split
      · rw [steps_add, List.length_cons]
        omega
      · next hclosed => rw [edges_of_closed (Bool.eq_false_iff.mpr hclosed)]

theorem edgesAfter_append (before first second : List Reduction) :
    edgesAfter before (first ++ second) = edgesAfter before first ++ edgesAfter (before ++ first) second := by
  induction first generalizing before with
  | nil => simp [edgesAfter]
  | cons reduction first ih => simp [edgesAfter, ih]

theorem length_edgesAfter (before rest : List Reduction) : (edgesAfter before rest).length = rest.length := by
  induction rest generalizing before with
  | nil => rfl
  | cons reduction rest ih => simp [edgesAfter, ih]

/-- Every edge starts at a completed nonterminal, with a number that was not used before. -/
theorem source_of_mem {before rest : List Reduction} {edge : Edge} (h : edge ∈ edgesAfter before rest) :
    ∃ reduction ∈ rest, ∃ number, edge.source = node reduction.parent number ∧
      completions reduction.parent before < number := by
  induction rest generalizing before with
  | nil => cases h
  | cons reduction rest ih =>
      rcases List.mem_cons.mp h with rfl | h
      · exact ⟨reduction, List.mem_cons_self, _, rfl, Nat.lt_succ_self _⟩
      · obtain ⟨later, hlater, number, hsource, hnumber⟩ := ih h
        refine ⟨later, List.mem_cons_of_mem _ hlater, number, hsource, ?_⟩
        rw [completions_snoc] at hnumber
        omega

theorem sources_nodup (before rest : List Reduction) : ((edgesAfter before rest).map Edge.source).Nodup := by
  induction rest generalizing before with
  | nil => exact List.nodup_nil
  | cons reduction rest ih =>
      rw [edgesAfter, List.map_cons, List.nodup_cons]
      refine ⟨?_, ih _⟩
      intro hmem
      obtain ⟨edge, hedge, hsource⟩ := List.mem_map.mp hmem
      obtain ⟨later, -, number, hstart, hnumber⟩ := source_of_mem hedge
      -- A later edge of the same name has a larger number.
      obtain ⟨hname, hsame⟩ := node_inj (hstart.symm.trans hsource)
      rw [hname, completions_snoc, if_pos rfl] at hnumber
      omega

/-- Every completion that was counted has its edge. -/
theorem exists_source {name : String} {number : Nat} {reductions : List Reduction} (hpos : 0 < number)
    (hle : number ≤ completions name reductions) :
    ∃ edge ∈ edgesAfter [] reductions, edge.source = node name number := by
  induction reductions using List.reverseRecOn with
  | nil =>
      have hzero : completions name [] = 0 := rfl
      omega
  | append_singleton reductions last ih =>
      rw [edgesAfter_append]
      by_cases hold : number ≤ completions name reductions
      · obtain ⟨edge, hedge, hsource⟩ := ih hold
        exact ⟨edge, List.mem_append_left _ hedge, hsource⟩
      · refine ⟨edgeAfter reductions last, List.mem_append_right _ List.mem_cons_self, ?_⟩
        rw [completions_snoc] at hle
        split at hle
        · next hlast =>
            have hnumber : number = completions name reductions + 1 := by omega
            rw [edgeAfter, hlast, hnumber]
        · omega

/-- An edge leads to a node that was never completed, to the start of an earlier edge or, where a
nonterminal is its own principal child, to its own start. -/
inductive LeadsBack (earlier : List Edge) (edge : Edge) : Prop where
  | fresh {name : String} (target : edge.target = node name 0)
      (unused : ∀ other ∈ earlier ++ [edge], ∀ number, other.source ≠ node name number)
  | earlier {other : Edge} (member : other ∈ earlier) (target : edge.target = other.source)
  | loop {number : Nat} (source : edge.source = node "unary" number) (target : edge.target = edge.source)

theorem leadsBack_edgeAfter (before : List Reduction) {reduction : Reduction} (h : reduction.Proper) :
    LeadsBack (edgesAfter [] before) (edgeAfter before reduction) := by
  have hall : edgesAfter [] (before ++ [reduction]) = edgesAfter [] before ++ [edgeAfter before reduction] := by
    rw [edgesAfter_append]
    rfl
  by_cases hzero : completions reduction.child (before ++ [reduction]) = 0
  · have htarget : (edgeAfter before reduction).target = node reduction.child 0 := by rw [edgeAfter, hzero]
    refine .fresh htarget ?_
    rw [← hall]
    intro other hother number hsource
    obtain ⟨completed, hmem, number', hstart, -⟩ := source_of_mem hother
    obtain ⟨hname, -⟩ := node_inj (hstart.symm.trans hsource)
    rw [completions, List.countP_eq_zero] at hzero
    exact hzero completed hmem (by simpa using hname)
  · by_cases hself : reduction.parent = reduction.child
    · refine .loop (by rw [edgeAfter, h hself]) ?_
      rw [edgeAfter, ← hself, completions_snoc, if_pos rfl]
    · rw [completions_snoc, if_neg hself, Nat.add_zero] at hzero
      obtain ⟨other, hother, hsource⟩ := exists_source (Nat.pos_of_ne_zero hzero) (Nat.le_refl _)
      refine .earlier hother ?_
      rw [hsource]
      show node reduction.child (completions reduction.child (before ++ [reduction])) = _
      rw [completions_snoc, if_neg hself, Nat.add_zero]

/-- The edges of a graph in the order in which they were added. -/
structure Grounded (edges : List Edge) : Prop where
  distinct : (edges.map Edge.source).Nodup
  step : ∀ earlier edge later, edges = earlier ++ edge :: later → edge.step = earlier.length + 1
  back : ∀ earlier edge later, edges = earlier ++ edge :: later → LeadsBack earlier edge
  numbered : ∀ edge ∈ edges, ∀ name, edge.source ≠ node name 0

theorem grounded_edgesAfter {reductions : List Reduction} (h : ∀ reduction ∈ reductions, reduction.Proper)
    {edges : List Edge} (hedges : edges <+: edgesAfter [] reductions) : Grounded edges := by
  have hsplit : ∀ earlier edge later, edges = earlier ++ edge :: later → ∃ before reduction,
      reduction ∈ reductions ∧ earlier = edgesAfter [] before ∧ edge = edgeAfter before reduction := by
    rintro earlier edge later rfl
    obtain ⟨more, hmore⟩ := hedges
    -- The reductions are cut where the edges are.
    have hlength : earlier.length < reductions.length := by
      rw [← length_edgesAfter [] reductions, ← hmore]
      simp
    have hcut : reductions = reductions.take earlier.length ++
        reductions[earlier.length] :: reductions.drop (earlier.length + 1) := by
      simp
    refine ⟨reductions.take earlier.length, reductions[earlier.length], List.getElem_mem _, ?_⟩
    rw [hcut, edgesAfter_append, List.append_assoc] at hmore
    have hsame := List.append_inj hmore (by rw [length_edgesAfter, List.length_take]; omega)
    exact ⟨hsame.1, (List.cons.inj hsame.2).1⟩
  refine ⟨?_, ?_, ?_, ?_⟩
  · exact (sources_nodup [] reductions).sublist (hedges.sublist.map _)
  · intro earlier edge later heq
    obtain ⟨before, reduction, -, rfl, rfl⟩ := hsplit earlier edge later heq
    rw [length_edgesAfter]
    rfl
  · intro earlier edge later heq
    obtain ⟨before, reduction, hmem, rfl, rfl⟩ := hsplit earlier edge later heq
    exact leadsBack_edgeAfter before (h reduction hmem)
  · intro edge hedge name hsource
    obtain ⟨reduction, -, number, hstart, hnumber⟩ := source_of_mem (hedges.subset hedge)
    obtain ⟨-, hzero⟩ := node_inj (hstart.symm.trans hsource)
    omega

/-- An edge leads from a node to another one. -/
def Linked (edges : List Edge) (first second : String) : Prop :=
  first ≠ second ∧ ∃ edge ∈ edges, edge.source = first ∧ edge.target = second

section
variable {edges : List Edge}

theorem Grounded.source_unique (h : Grounded edges) {edge other : Edge} (hedge : edge ∈ edges)
    (hother : other ∈ edges) (heq : edge.source = other.source) : edge = other :=
  List.inj_on_of_nodup_map h.distinct hedge hother heq

/-- The edge that starts where another one leads to was added before it. -/
theorem Grounded.step_lt (h : Grounded edges) {first second : String} (hlink : Linked edges first second)
    {edge other : Edge} (hedge : edge ∈ edges) (hfirst : edge.source = first) (hother : other ∈ edges)
    (hsecond : other.source = second) : other.step < edge.step := by
  obtain ⟨hne, same, hsame, rfl, rfl⟩ := hlink
  obtain rfl := h.source_unique hedge hsame hfirst
  obtain ⟨earlier, later, hsplit⟩ := List.append_of_mem hedge
  cases h.back earlier edge later hsplit with
  | fresh target _ => exact absurd (hsecond.trans target) (h.numbered other hother _)
  | loop _ target => exact absurd target.symm hne
  | @earlier found member target =>
      have hfound : found ∈ edges := hsplit ▸ List.mem_append_left _ member
      obtain rfl := h.source_unique hother hfound (hsecond.trans target)
      obtain ⟨before, behind, hbefore⟩ := List.append_of_mem member
      have hcut : edges = before ++ other :: (behind ++ edge :: later) := by
        rw [hsplit, hbefore]
        simp
      rw [h.step _ _ _ hsplit, h.step _ _ _ hcut, hbefore]
      simp

/-- Along a path the edges get older, so no path comes back. -/
theorem Grounded.acyclic (h : Grounded edges) (start : String) :
    ¬ Relation.TransGen (Linked edges) start start := by
  have hpath : ∀ {first last : String}, Relation.TransGen (Linked edges) first last →
      ∀ edge ∈ edges, edge.source = first → ∀ other ∈ edges, other.source = last → other.step < edge.step := by
    intro first last path
    induction path with
    | single hlink =>
        intro edge hedge hfirst other hother hlast
        exact h.step_lt hlink hedge hfirst hother hlast
    | tail _ hlink ih =>
        intro edge hedge hfirst other hother hlast
        obtain ⟨-, middle, hmiddle, hsource, -⟩ := id hlink
        have hnew := h.step_lt hlink hmiddle hsource hother hlast
        exact Nat.lt_trans hnew (ih edge hedge hfirst middle hmiddle hsource)
  intro hcycle
  obtain ⟨_, ⟨-, edge, hedge, hsource, -⟩, -⟩ := Relation.TransGen.head'_iff.mp hcycle
  exact Nat.lt_irrefl _ (hpath hcycle edge hedge hsource edge hedge hsource)

end

end GrammarGraph

namespace Reading
open GrammarGraph

/-- The edges that are drawn while a text is read, whether or not it is a program, start at distinct nodes
and lead back, and they have no cycles but the loops at unary operators. -/
theorem edges_lead_back (text : String) (sink : Sink) :
    let graph := GrammarGraph.opened true sink
    let reading := Reading.ofText text graph
    let edges := graph.edges reading.reductions.toList
    reading.graph = graph.addAll reading.reductions ∧ reading.graph.steps = edges.length ∧ Grounded edges ∧
      ∀ start, ¬ Relation.TransGen (Linked edges) start start := by
  intro graph reading edges
  obtain ⟨ast, reductions, hproper, heq⟩ := ofText_eq text
  have hreading : reading = ⟨⟨reductions, graph.addAll reductions⟩, ast⟩ := heq graph
  have hgrounded : Grounded edges := by
    have hfirst : edges <+: edgesAfter [] reductions.toList := by
      show graph.edges reading.reductions.toList <+: _
      rw [hreading]
      exact (counted_opened sink).first_edges _
    exact grounded_edgesAfter (by simpa using hproper) hfirst
  have hgraph : reading.graph = graph.addAll reading.reductions := by rw [hreading]
  refine ⟨hgraph, ?_, hgrounded, hgrounded.acyclic⟩
  rw [hgraph, addAll, ← Array.foldl_toList, steps_addAll]
  exact Nat.zero_add _

/-- The edge of a negation leads from the second unary expression to itself, not to the first one. -/
theorem negation_draws_loop :
    let graph := GrammarGraph.opened true {}
    let edges := graph.edges (Reading.ofText "print -x;" graph).reductions.toList
    ∃ earlier edge later, edges = earlier ++ edge :: later ∧
      edge.source = node "unary" 2 ∧ edge.target = node "unary" 2 ∧
      (∀ other ∈ earlier, other.source ≠ edge.target) ∧ ∀ name, edge.target ≠ node name 0 := by
  intro graph edges
  have hedges : edges.take 3 = [⟨"primary-1", "IDENT-0", 1⟩, ⟨"unary-1", "primary-1", 2⟩,
      ⟨"unary-2", "unary-2", 3⟩] := by decide +kernel
  refine ⟨[⟨"primary-1", "IDENT-0", 1⟩, ⟨"unary-1", "primary-1", 2⟩], ⟨"unary-2", "unary-2", 3⟩,
    edges.drop 3, ?_, by decide +kernel, by decide +kernel, by decide, fun name htarget => ?_⟩
  · rw [← List.take_append_drop 3 edges, hedges]
    simp
  · obtain ⟨-, hnumber⟩ := node_inj (show node "unary" 2 = node name 0 from htarget)
    cases hnumber

end Reading

end GotoLang
