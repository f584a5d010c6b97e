/-
  LinearTime.Reduction — removing what no accepting run needs.

  A component is accepting if the marks on its nodes, or on its interior edges,
  cover all acceptance sets.  One pass

    * clears the marks of edges that leave their component, if edges carry the
      marks: a run takes such an edge at most once;
    * removes the components that are neither accepting nor left by an edge;
    * clears all marks in other components that are not accepting or transient.

  Passes are repeated until one changes nothing.  If the initial node is gone,
  nothing is accepted and the whole graph is cleared.  Every pass but the last
  removes a node or a mark, which bounds their number.

  Core only.
-/

import LinearTime.Graph.Component

namespace LinearTime

/-- What a reduction did. -/
structure Summary where
  passes : Nat := 0
  removedNodes : Nat := 0
  removedEdges : Nat := 0
  clearedMarks : Nat := 0
  deriving DecidableEq, Repr

/-- The written form. -/
def Summary.text (s : Summary) : String :=
  "passes: " ++ s.passes.repr ++ ", removed nodes: " ++ s.removedNodes.repr
    ++ ", removed edges: " ++ s.removedEdges.repr
    ++ ", cleared marks: " ++ s.clearedMarks.repr

/-- A graph being reduced, and what was done to it. -/
structure Reduction (α : Type) where
  graph : Graph α
  summary : Summary := {}

namespace Graph

variable {α : Type}

/-- The acceptance sets that a run staying in the component can visit again and
    again. -/
def witnessed (g : Graph α) (c : Component) : MarkSet :=
  match g.acceptance.carrier with
  | .nodes => .unionAll (c.toList.filterMap fun v => (g.node? v).map fun n => n.attributes.marks)
  | .edges => .unionAll ((g.interiorEdges c).map fun e => e.2.attributes.marks)

/-- Whether the marks of the component cover all acceptance sets. -/
def isAccepting (g : Graph α) (c : Component) : Bool :=
  (g.witnessed c).covers g.acceptance.sets

/-- What a pass does to one component. -/
inductive Verdict where
  | remove (nodes : List Nat)
  | clear (nodes edges : List Nat)

/-- What has to be done to a component, if anything. -/
def verdict? (g : Graph α) (c : Component) : Option Verdict :=
  let accepting := g.isAccepting c
  if !accepting && g.isTerminal c then some (.remove c.toList)
  -- runs may pass it, but none that stays in it is accepting
  else if !accepting || g.isTransient c then
    some (.clear c.toList ((g.edgesOf c).map (·.1)))
  else none

/-- The number of marks on all nodes and edges. -/
def markCount (g : Graph α) : Nat :=
  let onNodes := g.nodeIndices.map fun v => ((g.node? v).map (·.attributes.marks.size)).getD 0
  let onEdges := g.edgeIndices.map fun e => ((g.edge? e).map (·.attributes.marks.size)).getD 0
  onNodes.foldr (· + ·) 0 + onEdges.foldr (· + ·) 0

end Graph

namespace Reduction

variable {α : Type}

/-- Notes that marks were cleared. -/
def cleared (r : Reduction α) (graph : Graph α) (marks : Nat) : Reduction α :=
  ⟨graph, { r.summary with clearedMarks := r.summary.clearedMarks + marks }⟩

/-- Clears the marks of a node. -/
def clearNode (r : Reduction α) (v : Nat) : Reduction α :=
  match r.graph.node? v with
  | none => r
  | some n =>
    r.cleared (r.graph.modifyNodeAttributes v fun a => { a with marks := .empty })
      n.attributes.marks.size

/-- Clears the marks of an edge. -/
def clearEdge (r : Reduction α) (e : Nat) : Reduction α :=
  match r.graph.edge? e with
  | none => r
  | some edge =>
    r.cleared (r.graph.modifyEdgeAttributes e fun a => { a with marks := .empty })
      edge.attributes.marks.size

/-- Removes a node and its edges. -/
def removeNode (r : Reduction α) (v : Nat) : Reduction α :=
  match r.graph.removeNode? v with
  | none => r
  | some (edges, graph) =>
    ⟨graph, { r.summary with
      removedNodes := r.summary.removedNodes + 1
      removedEdges := r.summary.removedEdges + edges }⟩

/-- Carries out a verdict. -/
def carryOut (r : Reduction α) : Graph.Verdict → Reduction α
  | .remove nodes => nodes.foldl removeNode r
  | .clear nodes edges => edges.foldl clearEdge (nodes.foldl clearNode r)

/-- Clears the marks of edges that leave their component, if edges carry the
    marks. -/
def clearExits (r : Reduction α) : Reduction α :=
  match r.graph.acceptance.carrier with
  | .nodes => r
  | .edges =>
    let exits := r.graph.components.flatMap fun c => (r.graph.exitEdges c).map (·.1)
    exits.foldl clearEdge r

/-- One pass: exits first, then the verdicts on all components as they are
    after that. -/
def pass (r : Reduction α) : Reduction α :=
  let r := r.clearExits
  -- all verdicts are reached on the same graph, before any is carried out
  let verdicts := r.graph.components.filterMap r.graph.verdict?
  let r := verdicts.foldl carryOut r
  { r with summary := { r.summary with passes := r.summary.passes + 1 } }

/-- How many nodes were removed and marks cleared so far. -/
def changes (r : Reduction α) : Nat := r.summary.removedNodes + r.summary.clearedMarks

/-- Runs passes until one changes nothing, but not more than told. -/
def repeatPass : Nat → Reduction α → Reduction α
  | 0, r => r
  | passes + 1, r =>
    let r' := r.pass
    -- edges are not counted: they go with their nodes
    if r'.changes = r.changes then r' else repeatPass passes r'

/-- Clears a graph whose initial node is gone while others are left. -/
def clearUnlessInitial (r : Reduction α) : Reduction α :=
  if r.graph.hasNode 0 || r.graph.isEmpty then r
  else
    ⟨r.graph.clear, { r.summary with
      removedNodes := r.summary.removedNodes + r.graph.size
      removedEdges := r.summary.removedEdges + r.graph.edgeCount }⟩

end Reduction

/-- Reduces a graph. A graph without nodes is left alone. -/
def Graph.reduce {α : Type} (g : Graph α) : Reduction α :=
  if g.isEmpty then { graph := g }
  else (Reduction.repeatPass (g.size + g.markCount + 1) { graph := g }).clearUnlessInitial

end LinearTime
