/-
  LinearTime.Graph.Basic — graphs with removable nodes and edges.

  Nodes and edges are addressed by their index.  Removing one leaves a hole,
  so all other indices stay valid.  Node `0` is the initial node.

  The edges that leave a node form a doubly linked list in the order in which
  they were added: the node knows its first edge, every edge its neighbours.
  `edgesFrom` follows the links; the number of edge slots bounds the walk.

  Core only.
-/

import LinearTime.Graph.Acceptance
import LinearTime.Guard.Basic

namespace LinearTime

/-- A node and the first of the edges that leave it. -/
structure Graph.Node where
  attributes : Attributes
  first : Option Nat

/-- An edge and its neighbours among the edges that leave its source. -/
structure Graph.Edge (α : Type) where
  source : Nat
  target : Nat
  guard : Guard α
  action : String
  attributes : Attributes
  prev : Option Nat
  next : Option Nat

/-- Nodes and edges by index, with holes where one was removed. -/
structure Graph (α : Type) where
  acceptance : Acceptance
  nodes : Array (Option Graph.Node) := #[]
  edges : Array (Option (Graph.Edge α)) := #[]

namespace Graph

variable {α : Type}

/-! ## §1. Looking up -/

/-- The node with this index. -/
def node? (g : Graph α) (i : Nat) : Option Node := g.nodes[i]?.join

/-- The edge with this index. -/
def edge? (g : Graph α) (i : Nat) : Option (Edge α) := g.edges[i]?.join

/-- Whether there is a node with this index. -/
def hasNode (g : Graph α) (i : Nat) : Bool := (g.node? i).isSome

/-- The indices of the nodes, ascending. -/
def nodeIndices (g : Graph α) : List Nat := (List.range g.nodes.size).filter g.hasNode

/-- The indices of the edges, ascending. -/
def edgeIndices (g : Graph α) : List Nat :=
  (List.range g.edges.size).filter fun i => (g.edge? i).isSome

/-- The number of nodes. -/
def size (g : Graph α) : Nat := g.nodeIndices.length

/-- The number of edges. -/
def edgeCount (g : Graph α) : Nat := g.edgeIndices.length

/-- Whether there is no node. -/
def isEmpty (g : Graph α) : Bool := g.nodeIndices.isEmpty

/-- The initial node, as long as it is there. -/
def initial? (g : Graph α) : Option Nat := if g.hasNode 0 then some 0 else none

/-- Follows the links from an edge on, for at most `steps` edges. -/
def follow (g : Graph α) : (steps : Nat) → Option Nat → List (Nat × Edge α)
  | 0, _ => []
  | _ + 1, none => []
  | steps + 1, some i =>
    match g.edge? i with
    | none => []
    | some e => (i, e) :: g.follow steps e.next

/-- The edges that leave a node, with their indices, in the order in which
    they were added. -/
def edgesFrom (g : Graph α) (v : Nat) : List (Nat × Edge α) :=
  g.follow g.edges.size ((g.node? v).bind (·.first))

/-! ## §2. Changing -/

/-- Changes a node that is there. -/
def modifyNode (g : Graph α) (i : Nat) (f : Node → Node) : Graph α :=
  { g with nodes := g.nodes.modify i (·.map f) }

/-- Changes an edge that is there. -/
def modifyEdge (g : Graph α) (i : Nat) (f : Edge α → Edge α) : Graph α :=
  { g with edges := g.edges.modify i (·.map f) }

/-- Changes the attributes of a node that is there. -/
def modifyNodeAttributes (g : Graph α) (i : Nat) (f : Attributes → Attributes) : Graph α :=
  g.modifyNode i fun n => { n with attributes := f n.attributes }

/-- Changes the attributes of an edge that is there. -/
def modifyEdgeAttributes (g : Graph α) (i : Nat) (f : Attributes → Attributes) : Graph α :=
  g.modifyEdge i fun e => { e with attributes := f e.attributes }

/-- Adds a node; its index is the number of node slots before. -/
def addNode (g : Graph α) (attributes : Attributes) : Graph α :=
  { g with nodes := g.nodes.push (some ⟨attributes, none⟩) }

/-- Adds an edge behind the last one that leaves its source; its index is the
    number of edge slots before.  Both end points have to be there. -/
def addEdge? (g : Graph α) (source target : Nat) (guard : Guard α) (action : String)
    (attributes : Attributes) : Option (Graph α) :=
  if g.hasNode source && g.hasNode target then
    let index := g.edges.size
    let prev := (g.edgesFrom source).getLast?.map (·.1)
    -- the first edge of its source is linked from the node
    let linked :=
      match prev with
      | some last => g.modifyEdge last fun e => { e with next := some index }
      | none => g.modifyNode source fun n => { n with first := some index }
    some { linked with
      edges := linked.edges.push
        (some ⟨source, target, guard, action, attributes, prev, none⟩) }
  else none

/-- Removes an edge and joins its neighbours. -/
def removeEdge (g : Graph α) (i : Nat) : Graph α :=
  match g.edge? i with
  | none => g
  | some e =>
    let cut := { g with edges := g.edges.setIfInBounds i none }
    -- whoever led to the edge leads to the next one
    let joined :=
      match e.prev with
      | some p => cut.modifyEdge p fun f => { f with next := e.next }
      | none => cut.modifyNode e.source fun n => { n with first := e.next }
    match e.next with
    | some n => joined.modifyEdge n fun f => { f with prev := e.prev }
    | none => joined

/-- The edges that leave or enter a node. -/
def incident (g : Graph α) (v : Nat) : List Nat :=
  g.edgeIndices.filter fun i => (g.edge? i).any fun e => e.source == v || e.target == v

/-- Removes a node that is there together with its edges; the number of edges
    removed comes with the graph. -/
def removeNode? (g : Graph α) (v : Nat) : Option (Nat × Graph α) :=
  if g.hasNode v then
    let edges := g.incident v
    -- a loop is incident once, so it is counted once
    let bare := edges.foldl removeEdge g
    some (edges.length, { bare with nodes := bare.nodes.setIfInBounds v none })
  else none

/-- Removes all nodes and edges; indices start over. -/
def clear (g : Graph α) : Graph α := { g with nodes := #[], edges := #[] }

end Graph
end LinearTime
