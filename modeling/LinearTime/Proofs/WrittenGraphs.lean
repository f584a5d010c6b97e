/-
  LinearTime.Proofs.WrittenGraphs — writing graphs and reading them again.

  A graph is written as blocks, so what is read back is the graph of these blocks:
  its nodes are those of the graph that was written, numbered afresh without
  holes, and their edges are the same in the same order.  Nothing is lost but
  what lines cannot say, that is, blanks around actions and guards and actions
  that are empty.

  What was read has neither holes nor anything of this kind.  Its blocks are the
  ones that it was made of, so writing it and reading again changes nothing:

      text  ─read→  g  ─write→  lines  ─read→  g

  Main results:
    * `lines_eq_linesOf`, `blocks_ofNodeBlocks` — the blocks of a graph.
    * `Linked.readText_text` — what a written graph is read as.
    * `written_graph_reads_back` — the same, node by node and edge by edge.
    * `read_graph_is_stable` — reading, writing and reading again.
-/

import LinearTime.Graph.Writer
import LinearTime.Proofs.WrittenBlocks

namespace LinearTime
namespace Graph

open Text

variable {g g' : Graph String} {a : Acceptance} {bs : List NodeBlock} {k v i : Nat}

/-! ## §1. The blocks of a graph -/

/-- The block of an edge that gets these ends. -/
def Edge.block (source target : Nat) (e : Edge String) : EdgeBlock where
  source := source
  target := target
  guard := e.guard.spelledOut
  action := actionLine e.action
  attributes := e.attributes

/-- The block of a node that gets number `k`. -/
def blockOf (g : Graph String) (k v : Nat) : NodeBlock where
  attributes := (g.attributes? v).getD {}
  edges := (g.numberedEdges v).map fun e => e.2.block k e.1

/-- The blocks of the nodes, in the order of their indices. -/
def blocks (g : Graph String) : List NodeBlock := g.nodeIndices.mapIdx g.blockOf

/-- There is a block for every node. -/
theorem length_blocks (g : Graph String) : g.blocks.length = g.size := List.length_mapIdx

/-- The blocks are in the order of the nodes. -/
theorem getElem?_blocks (g : Graph String) (k : Nat) :
    g.blocks[k]? = g.nodeIndices[k]?.map (g.blockOf k) := List.getElem?_mapIdx

/-- An edge's block has the lines that are written for the edge. -/
theorem block_lines (c : Condition) (source target : Nat) (e : Edge String) :
    (e.block source target).lines c = edgeLines c target e := by
  unfold EdgeBlock.lines edgeLines Edge.block
  dsimp only
  rw [Guard.text_spelledOut]

/-- A graph is written as its blocks. -/
theorem lines_eq_linesOf (g : Graph String) : g.lines = linesOf g.acceptance g.blocks := by
  -- a block is written as the node that it is made from
  have hblock (k v : Nat) : (g.blockOf k v).lines g.acceptance.condition = g.nodeLines v := by
    unfold NodeBlock.lines blockOf nodeLines
    dsimp only
    rw [List.length_map, List.flatMap_map]
    simp only [block_lines]
    rfl
  have hblocks (vs : List Nat) (f : Nat → Nat → NodeBlock)
      (hf : ∀ k v, (f k v).lines g.acceptance.condition = g.nodeLines v) :
      (vs.mapIdx f).flatMap (NodeBlock.lines g.acceptance.condition) = vs.flatMap g.nodeLines := by
    induction vs generalizing f with
    | nil => rfl
    | cons v vs ih =>
      rw [List.mapIdx_cons, List.flatMap_cons, List.flatMap_cons, hf,
        ih (fun k => f (k + 1)) fun k => hf (k + 1)]
  unfold lines linesOf
  rw [length_blocks, blocks, hblocks _ _ hblock]

/-- The text of a graph is the lines of its blocks. -/
theorem text_eq_linesOf (g : Graph String) :
    g.text = String.join ((linesOf g.acceptance g.blocks).map (· ++ "\n")) := by
  unfold text
  rw [lines_eq_linesOf]

/-- The blocks of the edges, told without links. -/
theorem blockOf_edges (g : Graph String) (k v : Nat) :
    (g.blockOf k v).edges = ((g.edgesFrom v).map (·.2.bare)).filterMap fun e =>
      (g.nodeIndices.idxOf? e.target).map fun target => e.block k target := by
  unfold blockOf numberedEdges
  dsimp only
  rw [List.map_filterMap, List.filterMap_map]
  apply List.filterMap_congr
  intro p _
  show Option.map _ (Option.map _ _) = Option.map _ _
  rw [Option.map_map]
  rfl

/-- The new number of a node is its place among the nodes. -/
theorem idxOf?_nodeIndices : g.nodeIndices.idxOf? v = some k ↔ g.nodeIndices[k]? = some v := by
  rw [List.idxOf?_eq_some_iff, List.getElem?_eq_some_iff]
  constructor
  · rintro ⟨hk, heq, -⟩
    exact ⟨hk, heq⟩
  · rintro ⟨hk, heq⟩
    refine ⟨hk, heq, fun j hj hj' => ?_⟩
    have := (nodeIndices_nodup g).getElem_inj_iff.1 (hj'.trans heq.symm)
    omega

/-- Every node has a number when it is written. -/
theorem exists_number (hv : g.hasNode v = true) : ∃ k : Nat, g.nodeIndices[k]? = some v :=
  List.mem_iff_getElem?.1 (mem_nodeIndices.2 hv)

/-! ## §2. Graphs that are written -/

/-- The line of an action is plain, even if the action is blank. -/
theorem plain_actionLine {action : String} (hcomment : '#' ∉ action.toList)
    (hfeed : '\n' ∉ action.toList) : Plain (actionLine action).toList := by
  unfold actionLine
  split
  next => exact plain_of_solid (by decide) (by decide)
  next hne =>
    rw [String.toList_ofList]
    exact {
      ne_nil := hne
      trimmed := trimmed_trim _
      comment := fun hc => hcomment (mem_of_mem_trim hc)
      feed := fun hc => hfeed (mem_of_mem_trim hc) }

/-- A plain action stands on its line as it is. -/
theorem actionLine_eq_self {action : String} (h : Plain action.toList) :
    actionLine action = action := by
  unfold actionLine
  rw [trim_eq_self h.trimmed]
  split
  next hnil => exact absurd hnil h.ne_nil
  next => rw [String.ofList_toList]

/-- What lines can say about an edge: its marks are such as the header admits, if
    edges carry the marks, its guard reads as it is written, and its action stays
    on its line. -/
structure Edge.Writable (a : Acceptance) (e : Edge String) : Prop where
  attributes : e.attributes.Writable a .edges
  guard : e.guard.Writable
  comment : '#' ∉ e.action.toList
  feed : '\n' ∉ e.action.toList

instance (a : Acceptance) (e : Edge String) : Decidable (e.Writable a) :=
  decidable_of_iff (e.attributes.Writable a .edges ∧ e.guard.Writable
      ∧ '#' ∉ e.action.toList ∧ '\n' ∉ e.action.toList)
    ⟨fun h => ⟨h.1, h.2.1, h.2.2.1, h.2.2.2⟩, fun h => ⟨h.1, h.2, h.3, h.4⟩⟩

/-- What lines can say about a graph. -/
structure Writable (g : Graph String) : Prop where
  node : ∀ v n, g.node? v = some n → n.attributes.Writable g.acceptance .nodes
  edge : ∀ i e, g.edge? i = some e → e.Writable g.acceptance

/-- It is enough to look at the nodes and edges that are there. -/
theorem writable_iff : g.Writable
    ↔ (∀ v ∈ g.nodeIndices, ∀ n ∈ g.node? v, n.attributes.Writable g.acceptance .nodes)
      ∧ ∀ i ∈ g.edgeIndices, ∀ e ∈ g.edge? i, e.Writable g.acceptance := by
  constructor
  · intro h
    exact ⟨fun v _ n hn => h.node v n hn, fun i _ e he => h.edge i e he⟩
  · rintro ⟨hnode, hedge⟩
    constructor
    · intro v n hn
      exact hnode v (mem_nodeIndices.2 (hasNode_iff.2 ⟨n, hn⟩)) n hn
    · intro i e he
      exact hedge i (mem_edgeIndices.2 ⟨e, he⟩) e he

instance (g : Graph String) : Decidable g.Writable := decidable_of_iff _ writable_iff.symm

/-- All counts are numbers of machine size, as lines can hold no others. -/
structure Fits (g : Graph String) : Prop where
  nodes : g.size < numberBound
  edges : ∀ v, (g.edgesFrom v).length < numberBound
  sets : g.acceptance.sets < numberBound

theorem length_follow_le (g : Graph String) (steps : Nat) (o : Option Nat) :
    (g.follow steps o).length ≤ steps := by
  induction steps generalizing o with
  | zero => exact Nat.le_refl 0
  | succ steps ih =>
    cases o with
    | none => exact Nat.zero_le _
    | some i =>
      unfold follow
      split
      next => exact Nat.zero_le _
      next e _ => exact Nat.succ_le_succ (ih e.next)

/-- That is so as long as the slots of the graph are counted by such numbers. -/
theorem fits_of_slots (hnodes : g.nodes.size < numberBound) (hedges : g.edges.size < numberBound)
    (hsets : g.acceptance.sets < numberBound) : g.Fits where
  nodes := by
    have hsize : g.nodeIndices.length ≤ (List.range g.nodes.size).length :=
      List.length_filter_le _ _
    rw [List.length_range] at hsize
    exact lt_of_le_of_lt hsize hnodes
  edges v := lt_of_le_of_lt (length_follow_le g _ _) hedges
  sets := hsets

/-- The block of an edge that can be written can be written. -/
theorem Edge.Writable.block {e : Edge String} (h : e.Writable a) (source target : Nat) :
    (e.block source target).Writable a where
  guard := h.guard.spelledOut
  literals := Guard.literals_spelledOut_ne_nil e.guard
  action := plain_actionLine h.comment h.feed
  attributes := h.attributes

/-- The blocks of such a graph are readable. -/
theorem Linked.readable_blocks (h : g.Linked) (hw : g.Writable) (hf : g.Fits)
    (hsets : 1 ≤ g.acceptance.sets) : Readable g.acceptance g.blocks where
  sets := hsets
  bound := hf.sets
  length := by
    rw [length_blocks]
    exact hf.nodes
  placed := by
    intro k b hb e he
    rw [getElem?_blocks] at hb
    obtain ⟨v, -, rfl⟩ := Option.map_eq_some_iff.1 hb
    obtain ⟨p, hp, rfl⟩ := List.mem_map.1 he
    obtain ⟨q, -, hq⟩ := List.mem_filterMap.1 hp
    obtain ⟨target, htarget, rfl⟩ := Option.map_eq_some_iff.1 hq
    obtain ⟨hlt, -⟩ := List.getElem?_eq_some_iff.1 (idxOf?_nodeIndices.1 htarget)
    rw [length_blocks]
    exact ⟨(Nat.zero_add k).symm, hlt⟩
  blocks := by
    intro b hb
    obtain ⟨k, hk⟩ := List.mem_iff_getElem?.1 hb
    rw [getElem?_blocks] at hk
    obtain ⟨v, hv, rfl⟩ := Option.map_eq_some_iff.1 hk
    obtain ⟨n, hn⟩ := hasNode_iff.1 (mem_nodeIndices.1 (List.mem_of_getElem? hv))
    have hattributes : (g.blockOf k v).attributes = n.attributes := by
      unfold blockOf
      dsimp only
      rw [attributes?_of_node? hn]
      rfl
    -- Every edge of the node is written, so that their number fits.
    have hlength : (g.blockOf k v).edges.length ≤ (g.edgesFrom v).length := by
      unfold blockOf numberedEdges
      dsimp only
      rw [List.length_map]
      exact List.length_filterMap_le _ _
    refine ⟨?_, ?_, lt_of_le_of_lt hlength (hf.edges v)⟩
    · rw [hattributes]
      exact hw.node v n hn
    · intro e he
      obtain ⟨p, hp, rfl⟩ := List.mem_map.1 he
      obtain ⟨q, hq, hmap⟩ := List.mem_filterMap.1 hp
      obtain ⟨target, -, rfl⟩ := Option.map_eq_some_iff.1 hmap
      exact (hw.edge _ _ (h.mem_edgesFrom.1 hq).1).block k target

/-- A written graph is read as the graph of its blocks. -/
theorem Linked.readText_text (h : g.Linked) (hw : g.Writable) (hf : g.Fits)
    (hsets : 1 ≤ g.acceptance.sets) :
    readText g.text = .ok (ofNodeBlocks g.acceptance g.blocks) := by
  rw [text_eq_linesOf]
  exact readText_linesOf (h.readable_blocks hw hf hsets)

/-! ## §3. What is read back -/

/-- An edge as it is read back: with its target's new number, with the constant as
    its guard if it had no literals, without blanks around its action, and with
    `-` as its action if nothing else was left. -/
structure Rewritten (g : Graph String) (e e' : Edge String) : Prop where
  source : g.nodeIndices[e'.source]? = some e.source
  target : g.nodeIndices[e'.target]? = some e.target
  literals : e'.guard.literals = if e.guard.literals = [] then [.truth] else e.guard.literals
  action : e'.action.toList = if trim e.action.toList = [] then ['-'] else trim e.action.toList
  attributes : e'.attributes = e.attributes

/-- The graph has the nodes of `g`, numbered by their places among them, with the
    same attributes, and from each node it has the same edges in the same order. -/
structure Renumbered (g g' : Graph String) : Prop where
  reached : g'.Reached
  acceptance : g'.acceptance = g.acceptance
  nodes : g'.nodeIndices = List.range g.size
  attributes : ∀ k v, g.nodeIndices[k]? = some v → g'.attributes? k = g.attributes? v
  edges : ∀ k v, g.nodeIndices[k]? = some v →
    List.Forall₂ (fun p p' => g.Rewritten p.2 p'.2) (g.edgesFrom v) (g'.edgesFrom k)

/-- The block of an edge is the edge as it is read back. -/
theorem rewritten_block {e : Edge String} (hsource : g.nodeIndices[k]? = some e.source)
    {target : Nat} (htarget : g.nodeIndices[target]? = some e.target) :
    g.Rewritten e (e.block k target).edge where
  source := hsource
  target := htarget
  literals := by
    show e.guard.spelledOut.literals = _
    unfold Guard.spelledOut Guard.isEmpty
    cases hliterals : e.guard.literals with
    | nil => rfl
    | cons l ls => simpa using hliterals
  action := by
    show (actionLine e.action).toList = _
    unfold actionLine
    -- an action without content is written as a dash
    cases trim e.action.toList with
    | nil => rfl
    | cons c cs =>
      dsimp only
      rw [String.toList_ofList, if_neg (List.cons_ne_nil _ _)]
  attributes := rfl

theorem forall₂_filterMap {β γ : Type} {R : β → γ → Prop} {f : β → Option γ} {xs : List β}
    (h : ∀ x ∈ xs, ∃ y, f x = some y ∧ R x y) : List.Forall₂ R xs (xs.filterMap f) := by
  induction xs with
  | nil => exact .nil
  | cons x xs ih =>
    obtain ⟨y, hy, hR⟩ := h x List.mem_cons_self
    rw [List.filterMap_cons_some hy]
    exact .cons hR (ih fun x hx => h x (List.mem_cons_of_mem _ hx))

/-- The graph of the blocks of a graph has its nodes and edges. -/
theorem Linked.renumbered (h : g.Linked) (hplaced : Placed 0 g.blocks.length g.blocks) :
    g.Renumbered (ofNodeBlocks g.acceptance g.blocks) := by
  have hlists := lists_ofNodeBlocks hplaced g.acceptance
  exact {
    reached := hlists.reached
    acceptance := hlists.acceptance
    nodes := by rw [hlists.nodeIndices, List.length_map, length_blocks]
    attributes := by
      intro k v hk
      obtain ⟨n, hn⟩ := hasNode_iff.1 (mem_nodeIndices.1 (List.mem_of_getElem? hk))
      rw [hlists.node, List.getElem?_map, getElem?_blocks, hk]
      show some ((g.attributes? v).getD {}) = _
      rw [attributes?_of_node? hn]
      rfl
    edges := by
      intro k v hk
      -- links play no part, so edges are compared without them
      have hbare : List.Forall₂ g.Rewritten ((g.edgesFrom v).map (·.2.bare))
          (((ofNodeBlocks g.acceptance g.blocks).edgesFrom k).map (·.2.bare)) := by
        rw [edgesFrom_ofNodeBlocks hplaced, getElem?_blocks, hk]
        show List.Forall₂ _ _ ((g.blockOf k v).edges.map EdgeBlock.edge)
        rw [blockOf_edges, List.forall₂_map_right_iff]
        apply forall₂_filterMap
        intro e he
        obtain ⟨p, hp, rfl⟩ := List.mem_map.1 he
        obtain ⟨hedge, rfl⟩ := h.mem_edgesFrom.1 hp
        obtain ⟨target, htarget⟩ := exists_number (h.target p.1 p.2 hedge)
        refine ⟨p.2.bare.block k target, ?_, rewritten_block (e := p.2.bare) hk htarget⟩
        show (g.nodeIndices.idxOf? p.2.target).map _ = _
        rw [idxOf?_nodeIndices.2 htarget]
        rfl
      rw [List.forall₂_map_left_iff, List.forall₂_map_right_iff] at hbare
      exact hbare.imp fun _ _ hpq =>
        ⟨hpq.source, hpq.target, hpq.literals, hpq.action, hpq.attributes⟩ }

/-- Writing and reading a graph with at least one acceptance set, whatever changes
    it went through, provided that lines can say what is in it. -/
theorem written_graph_reads_back (h : g.Reached) (hsets : 1 ≤ g.acceptance.sets) (hf : g.Fits)
    (hw : g.Writable) : ∃ g', readText g.text = .ok g' ∧ g.Renumbered g' := by
  have hlinked := h.linked
  exact ⟨_, hlinked.readText_text hw hf hsets,
    hlinked.renumbered (hlinked.readable_blocks hw hf hsets).placed⟩

/-- A graph with holes: the first node and one edge are gone.  What is left has a
    label with separators, an edge to itself, a guard without literals and actions
    with blanks. -/
def punctured : Graph String :=
  ofChanges { condition := .generalized 2, carrier := .edges }
    [.addNode {}, .addNode { label := some "q0, init=yes # start" }, .addNode { label := some "" },
      .addEdge 0 1 {} "" {}, .addEdge 1 1 {} " \t" { marks := .full 2 },
      .addEdge 2 1 ⟨[.positive "a b", .negative "TRUE", .truth]⟩ " go on " {},
      .addEdge 1 2 ⟨[.positive "é"]⟩ "step" { marks := .below 2 (· == 1), label := some "%" },
      .addEdge 2 2 {} "-" {}, .removeEdge 4, .removeNode 0]

/-- Its two nodes become `0` and `1`. -/
theorem written_graph_reads_back_punctured :
    punctured.Reached ∧ 1 ≤ punctured.acceptance.sets ∧ punctured.Fits ∧ punctured.Writable
      ∧ punctured.nodeIndices = [1, 2]
      ∧ ∃ g', readText punctured.text = .ok g' ∧ punctured.Renumbered g' := by
  have hreached : punctured.Reached := reached_ofChanges _ _
  have hsets : 1 ≤ punctured.acceptance.sets := by decide
  have hnodes : punctured.nodeIndices = [1, 2] := by decide
  have hfits : punctured.Fits := fits_of_slots (by decide) (by decide) (by decide)
  have hwritable : punctured.Writable := by decide +kernel
  exact ⟨hreached, hsets, hfits, hwritable, hnodes,
    written_graph_reads_back hreached hsets hfits hwritable⟩

/-! ## §4. What was read -/

theorem idxOf?_range {n : Nat} (hk : k < n) : (List.range n).idxOf? k = some k := by
  rw [List.idxOf?_eq_some_iff]
  refine ⟨by simpa using hk, by simp, fun j hj => ?_⟩
  simp
  omega

/-- The graph of readable blocks has these blocks. -/
theorem blocks_ofNodeBlocks (h : Readable a bs) : (ofNodeBlocks a bs).blocks = bs := by
  have hlists := lists_ofNodeBlocks h.placed a
  have hnodes : (ofNodeBlocks a bs).nodeIndices = List.range bs.length := by
    rw [hlists.nodeIndices, List.length_map]
  apply List.ext_getElem?
  intro k
  rw [getElem?_blocks, hnodes]
  by_cases hk : k < bs.length
  · have hb := List.getElem?_eq_getElem hk
    have hblock := h.blocks _ (List.getElem_mem hk)
    have hedges : ((ofNodeBlocks a bs).blockOf k k).edges = bs[k].edges := by
      rw [blockOf_edges, edgesFrom_ofNodeBlocks h.placed, hb]
      show (bs[k].edges.map EdgeBlock.edge).filterMap _ = _
      rw [List.filterMap_map]
      -- Nodes are numbered by their places, so every target keeps its number.
      have hsame : ∀ e ∈ bs[k].edges, (((fun e : Edge String =>
          ((ofNodeBlocks a bs).nodeIndices.idxOf? e.target).map fun target =>
            e.block k target)) ∘ EdgeBlock.edge) e = some e := by
        intro e he
        obtain ⟨hsource, htarget⟩ := h.placed k _ hb e he
        have hwritable := hblock.edges e he
        show ((ofNodeBlocks a bs).nodeIndices.idxOf? e.target).map _ = _
        rw [hnodes, idxOf?_range htarget]
        show some (EdgeBlock.mk k e.target e.guard.spelledOut (actionLine e.action) e.attributes) = _
        rw [Guard.spelledOut_eq_self hwritable.literals, actionLine_eq_self hwritable.action]
        congr 1
        rw [Nat.zero_add] at hsource
        rw [← hsource]
      rw [List.filterMap_congr hsame, List.filterMap_some]
    have hattributes : ((ofNodeBlocks a bs).blockOf k k).attributes = bs[k].attributes := by
      show ((ofNodeBlocks a bs).attributes? k).getD {} = _
      rw [hlists.node, List.getElem?_map, hb]
      rfl
    rw [List.getElem?_range hk, hb]
    show some (NodeBlock.mk ((ofNodeBlocks a bs).blockOf k k).attributes
      ((ofNodeBlocks a bs).blockOf k k).edges) = _
    rw [hattributes, hedges]
  · rw [List.getElem?_eq_none (by simpa using hk), List.getElem?_eq_none (by omega)]
    rfl

/-- The graph of readable blocks can be written. -/
theorem Readable.writable (h : Readable a bs) : (ofNodeBlocks a bs).Writable := by
  have hlists := lists_ofNodeBlocks h.placed a
  constructor
  · intro v n hn
    have hattributes := attributes?_of_node? hn
    rw [hlists.node, List.getElem?_map] at hattributes
    obtain ⟨b, hb, heq⟩ := Option.map_eq_some_iff.1 hattributes
    rw [hlists.acceptance, ← heq]
    exact (h.blocks b (List.mem_of_getElem? hb)).attributes
  · intro i e he
    have hbare := bareEdge?_of_edge? he
    rw [hlists.edge] at hbare
    obtain ⟨b, hb, heq⟩ := Option.map_eq_some_iff.1 hbare
    obtain ⟨block, hblock, hmem⟩ := List.mem_flatMap.1 (List.mem_of_getElem? hb)
    have hedge := (h.blocks block hblock).edges b hmem
    -- an edge of the graph has all its parts from a block
    have hattributes : b.attributes = e.attributes := congrArg Edge.attributes heq
    have hguard : b.guard = e.guard := congrArg Edge.guard heq
    have haction : b.action = e.action := congrArg Edge.action heq
    rw [hlists.acceptance]
    exact {
      attributes := hattributes ▸ hedge.attributes
      guard := hguard ▸ hedge.guard
      comment := haction ▸ hedge.action.comment
      feed := haction ▸ hedge.action.feed }

/-- A graph that can be read has numbers within the bounds. -/
theorem Readable.fits (h : Readable a bs) : (ofNodeBlocks a bs).Fits := by
  have hlists := lists_ofNodeBlocks h.placed a
  constructor
  · unfold size
    rw [hlists.nodeIndices, List.length_range, List.length_map]
    exact h.length
  · intro v
    have hlength := congrArg List.length (edgesFrom_ofNodeBlocks h.placed a v)
    rw [List.length_map, List.length_map] at hlength
    rw [hlength]
    cases hb : bs[v]? with
    | none => exact lt_of_le_of_lt (Nat.zero_le _) h.length
    | some b => exact (h.blocks b (List.mem_of_getElem? hb)).length
  · rw [hlists.acceptance]
    exact h.bound

/-- Whatever text a graph is read from, writing it and reading again gives the same
    graph: the same indices, links, attributes, guards and actions. -/
theorem read_graph_is_stable (s : String) (h : readText s = .ok g) : readText g.text = .ok g := by
  obtain ⟨a, bs, hreadable, -, rfl⟩ := exists_readable_of_read h
  have hacceptance := (lists_ofNodeBlocks hreadable.placed a).acceptance
  unfold text
  rw [lines_eq_linesOf, blocks_ofNodeBlocks hreadable, hacceptance]
  exact readText_linesOf hreadable

/-- A text with comments, blanks, marks that are not set, an escape, a number with a
    sign and lines behind the end. -/
def looseText : String :=
  "# two nodes\n 02\n\ntype = gba, ac=edges, nsets=+2 # header\n1\nlabel=a%2cb\n1\n a & ! b&TRUE"
    ++ "\n go on\nacc0=false, acc01\n0\nlabel\nrest"

/-- What is read is written more strictly, and read again it is the same. -/
theorem read_graph_is_stable_looseText : ∃ g, readText looseText = .ok g
    ∧ g.text = "2\ntype=gba,ac=edges,nsets=2\n1\nlabel=a%2Cb\n1\na&!b&TRUE\ngo on\nacc1\n0\nlabel=\n"
    ∧ readText g.text = .ok g := by
  have hread : text <$> readText looseText = .ok ("2\ntype=gba,ac=edges,nsets=2\n1\nlabel=a%2Cb\n"
      ++ "1\na&!b&TRUE\ngo on\nacc1\n0\nlabel=\n") := by cbv
  obtain ⟨g, hg, htext⟩ := map_eq_ok hread
  exact ⟨g, hg, htext, read_graph_is_stable looseText hg⟩

end Graph
end LinearTime
