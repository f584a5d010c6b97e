/-
  LinearTime.Proofs.GraphBlocks — graphs that are given as blocks.

  A node block has the attributes of a node and a block for each edge that leaves
  it, in order.  Where the nodes are numbered by the places of their blocks, the
  graph of the blocks has the same nodes and, for each of them, the same edges:

      blocks  b₀  b₁  …  bₙ        edges from k  =  edges of bₖ

  So blocks and graph determine each other.

  Main results:
    * `lists_ofBlocks` — what the graph of some blocks is made of.
    * `Lists.edgesFrom` — the edges that leave one of its nodes.
    * `lists_ofNodeBlocks`, `edgesFrom_ofNodeBlocks` — the same for node blocks.
-/

import LinearTime.Graph.Reader
import LinearTime.Proofs.EdgeLists
import LinearTime.Proofs.ReducedRuns

namespace LinearTime
namespace Graph

/-! ## §1. Nodes and edges without links -/

section Bare

variable {α : Type} {g g' : Graph α} {v : Nat}

/-- The edges that leave a node, without their links, are told by their indices. -/
theorem Linked.bare_edgesFrom (h : g.Linked) (v : Nat) :
    (g.edgesFrom v).map (·.2.bare) = (g.edgeIndices.filter (g.leaves v)).filterMap g.bareEdge? := by
  rw [← h.indices_edgesFrom, List.filterMap_map]
  have hbare : ∀ p ∈ g.edgesFrom v, (g.bareEdge? ∘ fun p => p.1) p = some p.2.bare :=
    fun p hp => bareEdge?_of_edge? (h.mem_edgesFrom.1 hp).1
  rw [List.filterMap_congr hbare, List.filterMap_eq_map']

theorem leaves_eq_bareEdge? (g : Graph α) (v i : Nat) :
    g.leaves v i = (g.bareEdge? i).any (·.source == v) := by
  unfold leaves bareEdge?
  cases g.edge? i <;> rfl

end Bare

/-! ## §2. Graphs of blocks -/

/-- The edge of a block, without links. -/
def EdgeBlock.edge (b : EdgeBlock) : Edge String where
  source := b.source
  target := b.target
  guard := b.guard
  action := b.action
  attributes := b.attributes
  prev := none
  next := none

/-- The graph has the listed nodes and edges, numbered by their places. -/
structure Lists (a : Acceptance) (nodes : List Attributes) (edges : List EdgeBlock)
    (g : Graph String) : Prop where
  reached : g.Reached
  acceptance : g.acceptance = a
  size : g.nodes.size = nodes.length
  slots : g.edges.size = edges.length
  node : ∀ v, g.attributes? v = nodes[v]?
  edge : ∀ i, g.bareEdge? i = edges[i]?.map EdgeBlock.edge

variable {a : Acceptance} {nodes : List Attributes} {edges : List EdgeBlock} {g : Graph String}
  {v : Nat}

/-- A node is there just when it is listed. -/
theorem Lists.hasNode (h : Lists a nodes edges g) : g.hasNode v = true ↔ v < nodes.length := by
  rw [hasNode_eq_isSome, h.node]
  simp

/-- A node that is added goes to the end of the list. -/
theorem Lists.addNode (h : Lists a nodes [] g) (x : Attributes) :
    Lists a (nodes ++ [x]) [] (g.addNode x) where
  reached := .addNode h.reached x
  acceptance := h.acceptance
  size := by
    show (g.nodes.push _).size = _
    rw [Array.size_push, h.size, List.length_append, List.length_singleton]
  slots := h.slots
  node v := by
    have hold : (g.node? v).map (·.attributes) = nodes[v]? := h.node v
    -- the new node has the next number, all others have theirs
    rw [attributes?, node?_addNode, h.size, List.getElem?_append]
    split
    next heq =>
      rw [if_neg (by omega), heq, Nat.sub_self]
      rfl
    next hne =>
      rw [hold]
      split
      next => rfl
      next hge => rw [List.getElem?_eq_none (by omega), List.getElem?_eq_none (by simp; omega)]
  edge := h.edge

/-- Adding an edge between nodes that are there. -/
theorem Lists.addEdge (h : Lists a nodes edges g) {b : EdgeBlock}
    (hends : b.source < nodes.length ∧ b.target < nodes.length) :
    Lists a nodes (edges ++ [b])
      ((g.addEdge? b.source b.target b.guard b.action b.attributes).getD g) := by
  -- both ends are there, so the edge is added
  obtain ⟨g', hg'⟩ : ∃ g', g.addEdge? b.source b.target b.guard b.action b.attributes = some g' := by
    unfold Graph.addEdge?
    rw [h.hasNode.2 hends.1, h.hasNode.2 hends.2]
    exact ⟨_, rfl⟩
  rw [hg', Option.getD_some]
  obtain ⟨-, -, last, -, hedge, hnode, hacceptance, hsize, hslots⟩ := addEdge?_eq_some hg'
  exact {
    reached := .addEdge h.reached hg'
    acceptance := hacceptance.trans h.acceptance
    size := hsize.trans h.size
    slots := by rw [hslots, h.slots, List.length_append, List.length_singleton]
    node := by
      intro v
      rw [← h.node, attributes?, attributes?, hnode, Option.map_map]
      rfl
    edge := by
      intro i
      have hold : (g.edge? i).map Edge.bare = edges[i]?.map EdgeBlock.edge := h.edge i
      -- the new edge has the next number, as in the list
      rw [bareEdge?, hedge, h.slots, List.getElem?_append]
      split
      next heq =>
        rw [if_neg (by omega), heq, Nat.sub_self]
        rfl
      next hne =>
        rw [Option.map_map]
        show (g.edge? i).map Edge.bare = _
        rw [hold]
        split
        next => rfl
        next hge => rw [List.getElem?_eq_none (by omega), List.getElem?_eq_none (by simp; omega)] }

/-- The graph of some blocks, if all edges are between its nodes. -/
theorem lists_ofBlocks (hends : ∀ b ∈ edges, b.source < nodes.length ∧ b.target < nodes.length) :
    Lists a nodes edges (ofBlocks a nodes edges) := by
  -- First all nodes are added, then all edges, whose ends are there by then.
  have hnodes (rest : List Attributes) {nodes : List Attributes} {g : Graph String}
      (h : Lists a nodes [] g) : Lists a (nodes ++ rest) [] (rest.foldl Graph.addNode g) := by
    induction rest generalizing nodes g with
    | nil => rwa [List.append_nil]
    | cons x rest ih =>
      rw [List.append_cons]
      exact ih (h.addNode x)
  have hedges (rest : List EdgeBlock) {edges : List EdgeBlock} {g : Graph String}
      (hrest : ∀ b ∈ rest, b.source < nodes.length ∧ b.target < nodes.length)
      (h : Lists a nodes edges g) : Lists a nodes (edges ++ rest) (rest.foldl (fun g e =>
        (g.addEdge? e.source e.target e.guard e.action e.attributes).getD g) g) := by
    induction rest generalizing edges g with
    | nil => rwa [List.append_nil]
    | cons b rest ih =>
      rw [List.append_cons]
      exact ih (fun b hb => hrest b (List.mem_cons_of_mem _ hb))
        (h.addEdge (hrest b List.mem_cons_self))
  have hstart : Lists a [] [] ({ acceptance := a } : Graph String) :=
    ⟨.start a, rfl, rfl, rfl, fun _ => rfl, fun _ => rfl⟩
  exact hedges edges hends (hnodes nodes hstart)

/-- The nodes are numbered by their places. -/
theorem Lists.nodeIndices (h : Lists a nodes edges g) :
    g.nodeIndices = List.range nodes.length := by
  unfold Graph.nodeIndices
  rw [h.size, List.filter_eq_self]
  intro v hv
  exact h.hasNode.2 (List.mem_range.1 hv)

theorem filterMap_range_getElem? {β γ : Type} (xs : List β) (p : β → Bool) (f : β → γ) :
    ((List.range xs.length).filter fun i => xs[i]?.any p).filterMap (fun i => xs[i]?.map f)
      = (xs.filter p).map f := by
  induction xs using List.reverseRecOn with
  | nil => rfl
  | append_singleton xs x ih =>
    -- the last element changes nothing at smaller indices
    have hbefore (i : Nat) (hi : i ∈ List.range xs.length) : (xs ++ [x])[i]? = xs[i]? :=
      List.getElem?_append_left (List.mem_range.1 hi)
    have hlast : (xs ++ [x])[xs.length]? = some x := by simp
    rw [List.length_append, List.length_singleton, List.range_succ, List.filter_append,
      List.filterMap_append, List.filter_append, List.map_append, ← ih]
    congr 1
    · rw [List.filter_congr fun i hi => by rw [hbefore i hi]]
      apply List.filterMap_congr
      intro i hi
      rw [hbefore i (List.mem_of_mem_filter hi)]
    · rw [List.filter_singleton, List.filter_singleton, hlast]
      show (bif p x then [xs.length] else []).filterMap _ = _
      cases p x with
      | false => rfl
      | true => simp

/-- The edges from a node are the listed ones that have it as their source. -/
theorem Lists.edgesFrom (h : Lists a nodes edges g) (v : Nat) :
    (g.edgesFrom v).map (·.2.bare) = (edges.filter (·.source == v)).map EdgeBlock.edge := by
  have hleaves : g.leaves v = fun i => edges[i]?.any (·.source == v) := by
    funext i
    rw [leaves_eq_bareEdge?, h.edge, Option.any_map]
    rfl
  -- nothing was removed, so every slot holds an edge
  have hindices : g.edgeIndices = List.range edges.length := by
    unfold Graph.edgeIndices
    rw [h.slots, List.filter_eq_self]
    intro i hi
    rw [← isSome_bareEdge?, h.edge, Option.isSome_map]
    simpa using hi
  rw [h.reached.linked.bare_edgesFrom, hleaves, hindices,
    List.filterMap_congr fun i _ => h.edge i]
  exact filterMap_range_getElem? edges _ _

/-! ## §3. Node blocks -/

/-- A node with the edges that leave it. -/
structure NodeBlock where
  attributes : Attributes
  edges : List EdgeBlock

/-- The nodes are numbered from `first` on by the places of their blocks, and the
    edges lead from there to nodes below `count`. -/
def Placed (first count : Nat) (bs : List NodeBlock) : Prop :=
  ∀ k b, bs[k]? = some b → ∀ e ∈ b.edges, e.source = first + k ∧ e.target < count

theorem placed_nil (first count : Nat) : Placed first count [] :=
  fun _ _ hb => by cases hb

/-- Blocks are placed when the first one is, and the others are behind it. -/
theorem placed_cons {first count : Nat} {b : NodeBlock} {bs : List NodeBlock} :
    Placed first count (b :: bs)
      ↔ (∀ e ∈ b.edges, e.source = first ∧ e.target < count) ∧ Placed (first + 1) count bs := by
  constructor
  · intro h
    refine ⟨h 0 b rfl, fun k c hc e he => ?_⟩
    have := h (k + 1) c hc e he
    omega
  · rintro ⟨hb, hbs⟩ k c hc e he
    -- the head is at `first`, the others are one place further
    cases k with
    | zero =>
      obtain rfl := Option.some.inj hc
      exact hb e he
    | succ k =>
      have := hbs k c hc e he
      omega

/-- The graph of some node blocks. -/
def ofNodeBlocks (a : Acceptance) (bs : List NodeBlock) : Graph String :=
  ofBlocks a (bs.map (·.attributes)) (bs.flatMap (·.edges))

variable {bs : List NodeBlock}

/-- All edges are found with the block of their source. -/
theorem Placed.filter {first count : Nat} (h : Placed first count bs) (k : Nat) :
    (bs.flatMap (·.edges)).filter (·.source == first + k)
      = (bs[k]?.map (·.edges)).getD [] := by
  induction bs generalizing first k with
  | nil => rfl
  | cons b bs ih =>
    obtain ⟨hb, hbs⟩ := placed_cons.1 h
    rw [List.flatMap_cons, List.filter_append]
    cases k with
    | zero =>
      -- later blocks have later sources
      have hlater : (bs.flatMap (·.edges)).filter (·.source == first + 0) = [] := by
        rw [List.filter_eq_nil_iff]
        intro e he
        obtain ⟨c, hc, he⟩ := List.mem_flatMap.1 he
        obtain ⟨j, hj⟩ := List.mem_iff_getElem?.1 hc
        have := hbs j c hj e he
        rw [beq_iff_eq]
        omega
      have hfirst : b.edges.filter (·.source == first + 0) = b.edges := by
        rw [List.filter_eq_self]
        intro e he
        have := hb e he
        rw [beq_iff_eq]
        omega
      rw [hlater, hfirst, List.append_nil]
      rfl
    | succ k =>
      have hfirst : b.edges.filter (·.source == first + (k + 1)) = [] := by
        rw [List.filter_eq_nil_iff]
        intro e he
        have := hb e he
        rw [beq_iff_eq]
        omega
      have hnext := ih hbs k
      rw [Nat.add_assoc, Nat.add_comm 1 k] at hnext
      rw [hfirst, hnext]
      rfl

/-- The graph of placed blocks has their nodes and edges. -/
theorem lists_ofNodeBlocks (h : Placed 0 bs.length bs) (a : Acceptance) :
    Lists a (bs.map (·.attributes)) (bs.flatMap (·.edges)) (ofNodeBlocks a bs) := by
  apply lists_ofBlocks
  intro e he
  obtain ⟨b, hb, he⟩ := List.mem_flatMap.1 he
  obtain ⟨k, hk⟩ := List.mem_iff_getElem?.1 hb
  obtain ⟨hsource, htarget⟩ := h k b hk e he
  obtain ⟨hlt, -⟩ := List.getElem?_eq_some_iff.1 hk
  rw [List.length_map]
  omega

/-- The edges from a node are those of its block. -/
theorem edgesFrom_ofNodeBlocks (h : Placed 0 bs.length bs) (a : Acceptance) (k : Nat) :
    ((ofNodeBlocks a bs).edgesFrom k).map (·.2.bare)
      = ((bs[k]?.map (·.edges)).getD []).map EdgeBlock.edge := by
  have hfilter := h.filter k
  rw [Nat.zero_add] at hfilter
  rw [(lists_ofNodeBlocks h a).edgesFrom, hfilter]

end Graph
end LinearTime
