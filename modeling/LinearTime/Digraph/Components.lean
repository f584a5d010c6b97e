/-
  LinearTime.Digraph.Components — strongly connected components.

  Two nodes belong together when each can be reached from the other.  Tarjan's
  algorithm finds the components in a single depth-first search.  It numbers
  the nodes as it enters them and puts them on a stack, where they stay until
  their component is complete.  The nodes on the way from the root to the
  present node are kept with the edges that were not followed yet, so nothing
  recurs.

      way      (q, edges of q to follow) … (root, …)
      stack    nodes whose component is not complete, the latest on top
      low q    the least number on the stack that was seen from `q`, or from
               what was entered behind it

  When all edges of a node were followed and its low link is its own number,
  then the nodes down to it on the stack are a component.

  A component is complete only after the components that its edges lead to, and
  the result lists the components in this order.  So every edge between two
  components leads to one that stands earlier.

  Core only.
-/

import LinearTime.Digraph.Search

namespace LinearTime.Digraph

/-- A search for components that is under way. -/
structure Tarjan where
  /-- The numbers of the nodes that were entered. -/
  number : Array (Option Nat)
  /-- The low links of these nodes. -/
  low : Array Nat
  /-- Which nodes are on the stack. -/
  onStack : Array Bool
  stack : List Nat := []
  /-- The number that the next node gets. -/
  current : Nat := 0
  /-- The nodes on the way, each with its edges not followed yet, the present
      node first. -/
  way : List (Nat × List Nat) := []
  /-- The components, the latest first. -/
  found : List (List Nat) := []

namespace Tarjan

/-- A search that has entered no node. -/
def start (bound : Nat) : Tarjan where
  number := Array.replicate bound none
  low := Array.replicate bound 0
  onStack := Array.replicate bound false

/-- Numbers a node, puts it on the stack and goes on from there. -/
def enter (g : Digraph) (s : Tarjan) (v : Nat) : Tarjan :=
  { s with
    number := s.number.setIfInBounds v (some s.current)
    low := s.low.setIfInBounds v s.current
    onStack := s.onStack.setIfInBounds v true
    stack := v :: s.stack
    current := s.current + 1
    way := (v, g.successors v) :: s.way }

/-- Lowers the low link of a node, if the number is less. -/
def lower (s : Tarjan) (v n : Nat) : Tarjan :=
  { s with low := s.low.modify v (min · n) }

/-- Follows an edge from `q` to `v`.  Out of range there is no node. -/
def follow (g : Digraph) (s : Tarjan) (q v : Nat) : Tarjan :=
  match s.number[v]? with
  | none => s
  | some none => s.enter g v
  -- off the stack its component is complete, and it has no say any more
  | some (some n) => if s.onStack[v]?.getD false then s.lower q n else s

/-- The top of the stack down to `v`, and what is below. -/
def popTo (v : Nat) : List Nat → List Nat × List Nat
  | [] => ([], [])
  | u :: stack =>
    if u = v then ([u], stack)
    else
      let (popped, rest) := popTo v stack
      (u :: popped, rest)

/-- Takes the component of `q` off the stack. -/
def close (s : Tarjan) (q : Nat) : Tarjan :=
  let (component, stack) := popTo q s.stack
  { s with
    onStack := component.foldl (fun flags v => flags.setIfInBounds v false) s.onStack
    stack
    found := component :: s.found }

/-- Leaves a node all edges of which were followed: the node before it on the
    way gets its low link, and it closes its component if the link is its own
    number. -/
def leave (s : Tarjan) (q : Nat) : Tarjan :=
  let low := s.low[q]?.getD 0
  -- the node before it has seen what `q` has seen
  let s :=
    match s.way with
    | [] => s
    | (p, _) :: _ => s.lower p low
  if s.number[q]? = some (some low) then s.close q else s

/-- One step: the present node follows its next edge, or is left. -/
def step (g : Digraph) (s : Tarjan) : Tarjan :=
  match s.way with
  | [] => s
  | (q, v :: edges) :: way => { s with way := (q, edges) :: way }.follow g q v
  -- all edges were followed
  | (q, []) :: way => { s with way }.leave q

/-- Takes steps until the way is empty, but not more than told. -/
def run (g : Digraph) : (steps : Nat) → Tarjan → Tarjan
  | 0, s => s
  | steps + 1, s => if s.way.isEmpty then s else run g steps (s.step g)

/-- Searches from a node that was not entered. -/
def explore (g : Digraph) (steps : Nat) (s : Tarjan) (root : Nat) : Tarjan :=
  match s.number[root]? with
  | some none => run g steps (s.enter g root)
  | _ => s

end Tarjan

/-- The number of steps of a whole search: every edge is followed and every
    node is left once. -/
def steps (g : Digraph) : Nat :=
  ((List.range g.bound).map fun v => (g.successors v).length + 1).foldr (· + ·) 0

/-- The components, every edge between two of them leading to an earlier one. -/
def components (g : Digraph) : List (List Nat) :=
  (g.nodes.foldl (Tarjan.explore g g.steps) (Tarjan.start g.bound)).found.reverse

/-- For every number below the bound, where the component that it belongs to
    stands in the list. -/
def homes (g : Digraph) (components : List (List Nat)) : Array Nat :=
  components.zipIdx.foldl
    (fun table (c, i) => c.foldl (fun table v => table.setIfInBounds v i) table)
    (Array.replicate g.bound 0)

end LinearTime.Digraph
