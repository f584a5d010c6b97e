/-
  LinearTime.Graph.Component — the strongly connected components of a graph.

  A component is given by its nodes.  Its edges are those that leave one of
  its nodes: the interior ones stay inside, the others are its exits.

  Core only.
-/

import LinearTime.Digraph.Components
import LinearTime.Graph.Basic

namespace LinearTime

/-- The nodes of a component. -/
abbrev Component := IndexSet

namespace Graph

variable {α : Type}

/-- The nodes of the graph and the edges between them. -/
def toDigraph (g : Graph α) : Digraph where
  bound := g.nodes.size
  nodes := g.nodeIndices
  successors v := (g.edgesFrom v).map (·.2.target)

/-- The strongly connected components, every edge between two of them leading
    to an earlier one. -/
def components (g : Graph α) : List Component :=
  g.toDigraph.components.map OrderedSet.ofList

/-- The edges that leave a node of the component, node by node. -/
def edgesOf (g : Graph α) (c : Component) : List (Nat × Edge α) := c.toList.flatMap g.edgesFrom

/-- The edges that start and end in the component. -/
def interiorEdges (g : Graph α) (c : Component) : List (Nat × Edge α) :=
  (g.edgesOf c).filter fun e => c.contains e.2.target

/-- The edges that leave the component. -/
def exitEdges (g : Graph α) (c : Component) : List (Nat × Edge α) :=
  (g.edgesOf c).filter fun e => !c.contains e.2.target

/-- A single node without an edge to itself: no run can stay there. -/
def isTransient (g : Graph α) (c : Component) : Bool :=
  c.size == 1 && (g.interiorEdges c).isEmpty

/-- A component that no edge leaves. -/
def isTerminal (g : Graph α) (c : Component) : Bool := (g.exitEdges c).isEmpty

end Graph

/-- The nodes in brackets. -/
def Component.text (c : Component) : String :=
  "[" ++ ", ".intercalate (c.toList.map Nat.repr) ++ "]"

/-- A list of components in braces. -/
def Component.listText (cs : List Component) : String :=
  "\x7b" ++ ", ".intercalate (cs.map text) ++ "\x7d"

end LinearTime
