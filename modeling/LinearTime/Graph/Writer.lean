/-
  LinearTime.Graph.Writer — graphs in the line format.

  The number of nodes and the header; for each node the number of its edges
  and its attributes; for each of its edges the target, the guard, the action
  and the attributes.  Nodes are numbered afresh, in the order of their
  indices and without holes.

  Core only.
-/

import LinearTime.Graph.Basic
import LinearTime.Guard.Text

namespace LinearTime.Graph

variable {α : Type} [AtomName α]

/-- The action of an edge without blanks around it, `-` if nothing is left. -/
def actionLine (action : String) : String :=
  match Text.trim action.toList with
  | [] => "-"
  | cs => String.ofList cs

/-- The four lines of an edge whose target has number `target`. -/
def edgeLines (c : Condition) (target : Nat) (e : Edge α) : List String :=
  [target.repr, e.guard.text, actionLine e.action, e.attributes.line c]

/-- The edges of a node with the new numbers of their targets. -/
def numberedEdges (g : Graph α) (v : Nat) : List (Nat × Edge α) :=
  (g.edgesFrom v).filterMap fun e => (g.nodeIndices.idxOf? e.2.target).map (·, e.2)

/-- The lines of a node and its edges. -/
def nodeLines (g : Graph α) (v : Nat) : List String :=
  let c := g.acceptance.condition
  let edges := g.numberedEdges v
  let attributes := ((g.node? v).map Node.attributes).getD {}
  edges.length.repr :: attributes.line c :: edges.flatMap fun e => edgeLines c e.1 e.2

/-- All lines of a graph. -/
def lines (g : Graph α) : List String :=
  g.size.repr :: g.acceptance.text :: g.nodeIndices.flatMap g.nodeLines

/-- The written graph; every line is ended. -/
def text (g : Graph α) : String := String.join (g.lines.map (· ++ "\n"))

end LinearTime.Graph
