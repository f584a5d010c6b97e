/-
  LinearTime.Digraph.Search — depth-first search.

  The nodes of a digraph are some of the numbers below `bound`; `successors`
  lists the nodes that a node has edges to.  The search marks nodes when it
  enters them and lists them when it leaves them, the latest first.  A node
  out of range is never entered.

  The depth of the search is bounded by the number of nodes, which is the
  amount of fuel that the wrappers give: every descent marks a new node.

  Core only.
-/

namespace LinearTime

/-- The numbers below `bound` that are nodes, and the edges between them. -/
structure Digraph where
  bound : Nat
  nodes : List Nat
  successors : Nat → List Nat

namespace Digraph

/-- The nodes entered, and the nodes left, the latest first. -/
structure Search where
  entered : Array Bool
  left : List Nat

/-- A search that has entered no node. -/
def Search.start (bound : Nat) : Search := ⟨Array.replicate bound false, []⟩

/-- Whether a node needs no visit: it was entered, or there is no such node. -/
def Search.skips (s : Search) (v : Nat) : Bool := s.entered[v]?.getD true

/-- Marks a node as entered. -/
def Search.enter (s : Search) (v : Nat) : Search :=
  { s with entered := s.entered.setIfInBounds v true }

/-- Lists a node as left. -/
def Search.leave (s : Search) (v : Nat) : Search := { s with left := v :: s.left }

/-- Visits a node and, before leaving it, its successors in order. -/
def visit (g : Digraph) : (depth : Nat) → Search → Nat → Search
  | 0, s, _ => s
  | depth + 1, s, v =>
    if s.skips v then s
    else ((g.successors v).foldl (visit g depth) (s.enter v)).leave v

/-- Visits nodes one after the other. -/
def visitAll (g : Digraph) (vs : List Nat) : Search :=
  vs.foldl (g.visit (g.bound + 1)) (Search.start g.bound)

/-- The nodes that can be reached from `v`, itself included. -/
def reach (g : Digraph) (v : Nat) : Search := g.visitAll [v]

end Digraph
end LinearTime
