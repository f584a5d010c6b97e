/-
  LinearTime.Proofs.ReductionCounts — what a reduction leaves and what it counts.

  A linked graph is told by its nodes and edges without their links, for the links
  are determined by which edges leave a node.  So reduction can be described without
  them:

      removed nodes + nodes that are left   is the number of nodes,
      removed edges + edges that are left   is the number of edges,

  whichever node an edge was removed with, and also if everything is cleared in the
  end.  Marks are counted where they are cleared: a reduction that counts nothing
  has left the graph as it was, and one that leaves it as it was counts nothing.

  Main results:
    * `Linked.eq_of_content` — linked graphs with the same content are equal.
    * `Shrunk.keeps` — what is left is as it was before, but for marks.
    * `pass_balances`, `Linked.reduce_balances` — every node and edge is counted once.
    * `reduce_accounts` — all of it, for every graph that comes about.
-/

import LinearTime.Proofs.EdgeLists
import LinearTime.Proofs.TightGraphs

namespace LinearTime

namespace Graph

variable {α : Type} {g g' : Graph α} {R C D : Nat → Prop} {i v : Nat}

/-! ## §1. Links are determined -/

/-- The edges that leave a node are known from the edges without their links. -/
theorem leaves_congr (hedge : ∀ i, g'.bareEdge? i = g.bareEdge? i) (v i : Nat) :
    g'.Leaves v i ↔ g.Leaves v i := by
  rw [leaves_iff_bareEdge?, leaves_iff_bareEdge?, hedge]

/-- The first edge of a node is told by the edges that leave it. -/
theorem Linked.node?_eq (h : g.Linked) (h' : g'.Linked)
    (hnode : g'.attributes? v = g.attributes? v)
    (hedge : ∀ i, g'.bareEdge? i = g.bareEdge? i) : g'.node? v = g.node? v := by
  cases hn : g.node? v with
  | none =>
    have hnone : g'.attributes? v = none := hnode.trans (attributes?_eq_none hn)
    exact Option.map_eq_none_iff.1 hnone
  | some n =>
    obtain ⟨n', hn', ha⟩ := node?_of_attributes? (hnode.trans (attributes?_of_node? hn))
    have hfirst : n'.first = n.first :=
      (h'.first v n' hn').unique ((h.first v n hn).congr (leaves_congr hedge v))
    obtain ⟨a, f⟩ := n
    obtain ⟨a', f'⟩ := n'
    obtain rfl : a' = a := ha
    obtain rfl : f' = f := hfirst
    exact hn'

/-- So are the neighbours of an edge. -/
theorem Linked.edge?_eq (h : g.Linked) (h' : g'.Linked)
    (hedge : ∀ i, g'.bareEdge? i = g.bareEdge? i) (i : Nat) : g'.edge? i = g.edge? i := by
  cases he : g.edge? i with
  | none =>
    have hnone : g'.bareEdge? i = none := (hedge i).trans (bareEdge?_eq_none he)
    exact Option.map_eq_none_iff.1 hnone
  | some e =>
    have hbare : g'.bareEdge? i = some e.bare := (hedge i).trans (bareEdge?_of_edge? he)
    obtain ⟨e', he', hsame⟩ := Option.map_eq_some_iff.1 hbare
    have hsource : e'.source = e.source := (Edge.fields_of_bare hsame).1
    -- Links are determined by the edges: they are the next and the previous of the source.
    have hnext : e'.next = e.next := by
      have hleast := h'.next i e' he'
      rw [hsource] at hleast
      exact hleast.unique ((h.next i e he).congr fun j => and_congr_left' (leaves_congr hedge _ j))
    have hprev : e'.prev = e.prev := by
      have hgreatest := h'.prev i e' he'
      rw [hsource] at hgreatest
      exact hgreatest.unique
        ((h.prev i e he).congr fun j => and_congr_left' (leaves_congr hedge _ j))
    rw [he']
    obtain ⟨s, t, gd, act, a, p, n⟩ := e
    obtain ⟨s', t', gd', act', a', p', n'⟩ := e'
    obtain rfl : p' = p := hprev
    obtain rfl : n' = n := hnext
    injection hsame with hs ht hg hact ha
    subst hs ht hg hact ha
    rfl

/-- Linked graphs of the same extent with the same nodes and edges are equal. -/
theorem Linked.eq_of_content (h : g.Linked) (h' : g'.Linked)
    (hacceptance : g'.acceptance = g.acceptance)
    (hnodes : g'.nodes.size = g.nodes.size) (hedges : g'.edges.size = g.edges.size)
    (hnode : ∀ v, g'.attributes? v = g.attributes? v)
    (hedge : ∀ i, g'.bareEdge? i = g.bareEdge? i) : g' = g := by
  have hnode? (v : Nat) : g'.node? v = g.node? v := h.node?_eq h' (hnode v) hedge
  have hedge? (i : Nat) : g'.edge? i = g.edge? i := h.edge?_eq h' hedge i
  obtain ⟨a, ns, es⟩ := g
  obtain ⟨a', ns', es'⟩ := g'
  obtain rfl : a' = a := hacceptance
  have hns : ns' = ns := by
    refine Array.ext hnodes fun v hv' hv => ?_
    have hsame : ns'[v]?.join = ns[v]?.join := hnode? v
    rwa [Array.getElem?_eq_getElem hv', Array.getElem?_eq_getElem hv] at hsame
  have hes : es' = es := by
    refine Array.ext hedges fun i hi' hi => ?_
    have hsame : es'[i]?.join = es[i]?.join := hedge? i
    rwa [Array.getElem?_eq_getElem hi', Array.getElem?_eq_getElem hi] at hsame
  rw [hns, hes]

/-! ## §2. What is left -/

/-- What is left of a graph is as it was before, but for marks that were cleared. -/
structure Keeps (g g' : Graph α) : Prop where
  acceptance : g'.acceptance = g.acceptance
  nodes : g'.nodeIndices ⊆ g.nodeIndices
  edges : g'.edgeIndices ⊆ g.edgeIndices
  node : ∀ v n', g'.node? v = some n' →
    ∃ n, g.node? v = some n ∧ n'.attributes.Within n.attributes
  edge : ∀ i e', g'.edge? i = some e' →
    ∃ e, g.edge? i = some e ∧ e'.source = e.source ∧ e'.target = e.target
      ∧ e'.guard = e.guard ∧ e'.action = e.action ∧ e'.attributes.Within e.attributes
  /-- The edges of a node that are left come in the same order. -/
  order : ∀ v, ((g'.edgesFrom v).map (·.1)).Sublist ((g.edgesFrom v).map (·.1))

/-- The edges of a node that are left are some of those it had, in the same order. -/
theorem Shrunk.order (h : g.Shrunk g' R C D) (hg : g.Linked) (v : Nat) :
    ((g'.edgesFrom v).map (·.1)).Sublist ((g.edgesFrom v).map (·.1)) := by
  rw [h.linked.indices_edgesFrom, hg.indices_edgesFrom]
  -- both lists ascend, so their members tell them
  have hleft : g'.edgeIndices.filter (g'.leaves v)
      = (g.edgeIndices.filter (g.leaves v)).filter (g'.leaves v) := by
    refine ((edgeIndices_sorted g').filter _).eq_of_mem_iff
      (((edgeIndices_sorted g).filter _).filter _) fun i => ?_
    simp only [List.mem_filter, leaves_iff, mem_edgeIndices]
    constructor
    · rintro ⟨-, e', he', hv⟩
      obtain ⟨e, he, hsource, -⟩ := h.edge_within he'
      exact ⟨⟨⟨e, he⟩, e, he, hsource.symm.trans hv⟩, e', he', hv⟩
    · rintro ⟨-, e', he', hv⟩
      exact ⟨⟨e', he'⟩, e', he', hv⟩
  rw [hleft]
  exact List.filter_sublist

/-- What is left by removing and clearing is as it was before. -/
theorem Shrunk.keeps (h : g.Shrunk g' R C D) (hg : g.Linked) : g.Keeps g' where
  acceptance := h.acceptance
  nodes v hv := by
    rw [mem_nodeIndices] at hv ⊢
    exact (h.hasNode_iff.1 hv).1
  edges i hi := by
    rw [mem_edgeIndices] at hi ⊢
    obtain ⟨e', he'⟩ := hi
    obtain ⟨e, he, -⟩ := h.edge_within he'
    exact ⟨e, he⟩
  node _ _ := h.node_within
  edge _ _ := h.edge_within
  order := h.order hg

/-! ## §3. How much is left -/

/-- Clearing marks removes nothing. -/
theorem Shrunk.sizes_eq (h : g.Shrunk g' (fun _ => False) C D) :
    g'.size = g.size ∧ g'.edgeCount = g.edgeCount := by
  have hnodes : g'.nodeIndices = g.nodeIndices :=
    nodeIndices_congr fun v => Bool.eq_iff_iff.2 (h.hasNode_iff.trans (and_iff_left id))
  have hedges : g'.edgeIndices = g.edgeIndices := by
    refine edgeIndices_congr fun i => ?_
    rw [h.edge]
    cases g.bareEdge? i <;> simp
  exact ⟨congrArg List.length hnodes, congrArg List.length hedges⟩

/-- Removing a node makes the graph smaller by one. -/
theorem removeNode?_size_succ {n : Nat} (hg' : g.removeNode? v = some (n, g')) :
    g'.size + 1 = g.size := by
  obtain ⟨hv, -, -, hnode, -⟩ := removeNode?_eq_some hg'
  have hindices : g'.nodeIndices = g.nodeIndices.erase v := by
    refine (nodeIndices_sorted g').eq_of_mem_iff
      ((nodeIndices_sorted g).sublist List.erase_sublist) fun w => ?_
    rw [(nodeIndices_nodup g).mem_erase_iff, mem_nodeIndices, mem_nodeIndices,
      hasNode_eq_isSome, hnode, hasNode_eq_isSome]
    rcases eq_or_ne v w with rfl | hne
    · simp
    · simp [hne, hne.symm]
  have hmem := mem_nodeIndices.2 hv
  unfold size
  rw [hindices, List.length_erase_of_mem hmem]
  exact Nat.sub_add_cancel (List.length_pos_of_mem hmem)

end Graph

namespace Reduction

open LinearTime.Graph

variable {α : Type} {r r' r'' : Reduction α} {m n : Nat} {R C D : Nat → Prop}

/-- What is counted between two stages of a reduction is what goes, and `n` passes. -/
structure Balances (n : Nat) (r r' : Reduction α) : Prop where
  linked : r'.graph.Linked
  passes : r'.summary.passes = r.summary.passes + n
  nodes : r'.summary.removedNodes + r'.graph.size = r.summary.removedNodes + r.graph.size
  edges : r'.summary.removedEdges + r'.graph.edgeCount
    = r.summary.removedEdges + r.graph.edgeCount

theorem Balances.refl (h : r.graph.Linked) : Balances 0 r r := ⟨h, rfl, rfl, rfl⟩

/-- Counts of stages that follow each other add up. -/
theorem Balances.trans (h : Balances m r r') (h' : Balances n r' r'') :
    Balances (m + n) r r'' where
  linked := h'.linked
  passes := by rw [h'.passes, h.passes, Nat.add_assoc]
  nodes := h'.nodes.trans h.nodes
  edges := h'.edges.trans h.edges

/-- Steps that balance without a pass do so one after the other. -/
theorem Balances.foldl {β : Type} {step : Reduction α → β → Reduction α}
    (hstep : ∀ r b, r.graph.Linked → Balances 0 r (step r b)) (bs : List β)
    (h : r.graph.Linked) : Balances 0 r (bs.foldl step r) := by
  induction bs generalizing r with
  | nil => exact .refl h
  | cons b bs ih =>
    have hb := hstep r b h
    exact hb.trans (ih hb.linked)

/-- Steps that clear marks and touch no counter but that of marks. -/
theorem Steps.balances (h : Steps r r' (fun _ => False) C D)
    (hpasses : r'.summary.passes = r.summary.passes)
    (hnodes : r'.summary.removedNodes = r.summary.removedNodes)
    (hedges : r'.summary.removedEdges = r.summary.removedEdges) : Balances 0 r r' := by
  obtain ⟨hsize, hcount⟩ := h.shrunk.sizes_eq
  exact ⟨h.shrunk.linked, hpasses, by rw [hnodes, hsize], by rw [hedges, hcount]⟩

theorem clearNode_balances (h : r.graph.Linked) (v : Nat) : Balances 0 r (r.clearNode v) := by
  refine (clearNode_steps h v).balances ?_ ?_ ?_ <;> unfold clearNode <;> split <;> rfl

theorem clearEdge_balances (h : r.graph.Linked) (i : Nat) : Balances 0 r (r.clearEdge i) := by
  refine (clearEdge_steps h i).balances ?_ ?_ ?_ <;> unfold clearEdge <;> split <;> rfl

/-- The edges that go with a node are counted with it. -/
theorem removeNode_balances (h : r.graph.Linked) (v : Nat) : Balances 0 r (r.removeNode v) := by
  unfold removeNode
  split
  next => exact .refl h
  next edges g' hg' =>
    have hsize := removeNode?_size_succ hg'
    have hcount := (removeNode?_counts hg').1
    refine ⟨h.removeNode? hg', rfl, ?_, ?_⟩
    · show r.summary.removedNodes + 1 + g'.size = _
      omega
    · show r.summary.removedEdges + edges + g'.edgeCount = _
      omega

/-- Carrying out a verdict counts the nodes and edges that go. -/
theorem carryOut_balances (h : r.graph.Linked) (d : Verdict) : Balances 0 r (r.carryOut d) := by
  cases d with
  | remove nodes => exact .foldl (fun _ v hr => removeNode_balances hr v) nodes h
  | clear nodes edges =>
    have hnodes : Balances 0 r (nodes.foldl clearNode r) :=
      .foldl (fun _ v hr => clearNode_balances hr v) nodes h
    exact hnodes.trans (.foldl (fun _ i hr => clearEdge_balances hr i) edges hnodes.linked)

theorem clearExits_balances (h : r.graph.Linked) : Balances 0 r r.clearExits := by
  unfold clearExits
  split
  next => exact .refl h
  next => exact .foldl (fun _ i hr => clearEdge_balances hr i) _ h

/-- Counting a pass changes nothing else. -/
theorem Balances.counted (h : Balances n r r') : Balances (n + 1) r
    { r' with summary := { r'.summary with passes := r'.summary.passes + 1 } } :=
  ⟨h.linked, congrArg (· + 1) h.passes, h.nodes, h.edges⟩

/-- A pass counts every node and edge that it removes, and itself. -/
theorem pass_balances (h : r.graph.Linked) : Balances 1 r r.pass := by
  have hexits := clearExits_balances h
  have hverdicts : Balances 0 r.clearExits
      ((r.clearExits.graph.components.filterMap r.clearExits.graph.verdict?).foldl carryOut
        r.clearExits) := .foldl (fun _ d hr => carryOut_balances hr d) _ hexits.linked
  exact (hexits.trans hverdicts).counted

/-- After any number of passes what went has been counted, and so have the passes. -/
theorem iterate_pass_balances (h : r.graph.Linked) (n : Nat) : Balances n r (pass^[n] r) := by
  induction n generalizing r with
  | zero => exact .refl h
  | succ n ih =>
    have hpass := pass_balances h
    have hrest := hpass.trans (ih hpass.linked)
    rwa [Nat.add_comm 1 n] at hrest

/-- Clearing the graph counts all that goes, too. -/
theorem clearUnlessInitial_balances (h : r.graph.Linked) : Balances 0 r r.clearUnlessInitial := by
  unfold clearUnlessInitial
  split
  next => exact .refl h
  next => exact ⟨linked_clear _, rfl, rfl, rfl⟩

/-! ## §4. What is counted is what changes -/

/-- What all steps of some passes do. -/
theorem iterate_pass_steps (h : r.graph.Linked) (n : Nat) :
    ∃ R C D, Steps r (pass^[n] r) R C D := by
  induction n generalizing r with
  | zero => exact ⟨_, _, _, .refl h⟩
  | succ n ih =>
    obtain ⟨q, hexits, hverdicts⟩ := pass_steps h
    obtain ⟨R, C, D, hrest⟩ := ih (pass_linked h)
    exact ⟨_, _, _, (hexits.trans h hverdicts).trans h hrest⟩

/-- Steps leave the graph as it is if they count no change, and only then. -/
theorem Steps.graph_eq_iff (h : Steps r r' R C D) (hlinked : r.graph.Linked) :
    r'.graph = r.graph ↔ r'.changes = r.changes := by
  constructor
  · intro hsame
    have hcontent := h.content_le
    have hchanges := h.changes_le
    rw [hsame] at hcontent
    omega
  · intro hidle
    obtain ⟨hnode, hedge⟩ := h.unchanged hlinked hidle
    exact hlinked.eq_of_content h.shrunk.linked h.shrunk.acceptance h.nodes_size h.edges_size
      hnode hedge

end Reduction

namespace Graph

variable {α : Type} {g : Graph α}

/-! ## §5. Reduction -/

/-- A graph that has nodes is reduced by passes, the last of which changes nothing. -/
theorem Linked.reduce_eq_passes (h : g.Linked) (hempty : g.isEmpty = false) :
    ∃ n, Reduction.Settled (Reduction.pass^[n] { graph := g })
      ∧ g.reduce = (Reduction.pass^[n + 1] { graph := g }).clearUnlessInitial := by
  obtain ⟨n, hn, hsettled⟩ := Reduction.repeatPass_settles g h
  refine ⟨n, hsettled, ?_⟩
  rw [reduce_of_nonempty hempty, hn, Function.iterate_succ_apply']

/-- The summary of a reduction counts what is gone, over some number of passes. -/
theorem Linked.reduce_balances (h : g.Linked) :
    ∃ n, Reduction.Balances n { graph := g } g.reduce := by
  cases hempty : g.isEmpty with
  | true =>
    rw [reduce_of_isEmpty hempty]
    exact ⟨0, .refl h⟩
  | false =>
    obtain ⟨n, -, hreduce⟩ := h.reduce_eq_passes hempty
    have hpasses := Reduction.iterate_pass_balances (r := { graph := g }) h (n + 1)
    rw [hreduce]
    exact ⟨_, hpasses.trans (Reduction.clearUnlessInitial_balances hpasses.linked)⟩

/-- A graph that is not empty has a node. -/
theorem size_pos (hempty : g.isEmpty = false) : 0 < g.size := by
  unfold isEmpty at hempty
  exact List.length_pos_iff.2 (List.isEmpty_eq_false_iff.1 hempty)

/-- Reduction leaves the graph as it is if it counts nothing, and only then. -/
theorem Linked.reduce_graph_eq_iff (h : g.Linked) : g.reduce.graph = g ↔
    g.reduce.summary.removedNodes = 0 ∧ g.reduce.summary.removedEdges = 0
      ∧ g.reduce.summary.clearedMarks = 0 := by
  cases hempty : g.isEmpty with
  | true =>
    rw [reduce_of_isEmpty hempty]
    exact iff_of_true rfl ⟨rfl, rfl, rfl⟩
  | false =>
    obtain ⟨n, -, hreduce⟩ := h.reduce_eq_passes hempty
    obtain ⟨m, hbalances⟩ := h.reduce_balances
    rcases Reduction.clearUnlessInitial_cases (Reduction.pass^[n + 1] { graph := g })
      with ⟨hkept, -⟩ | ⟨hcleared, -⟩
    · -- the passes are steps, and what these count is what they change
      obtain ⟨R, C, D, hsteps⟩ := Reduction.iterate_pass_steps (r := { graph := g }) h (n + 1)
      rw [← hkept, ← hreduce] at hsteps
      have hzero : g.reduce.graph = g
          ↔ g.reduce.summary.removedNodes + g.reduce.summary.clearedMarks = 0 :=
        hsteps.graph_eq_iff h
      have hedges : g.reduce.summary.removedEdges + g.reduce.graph.edgeCount
          = 0 + g.edgeCount := hbalances.edges
      constructor
      · intro hsame
        have hcount := hzero.1 hsame
        rw [hsame] at hedges
        omega
      · rintro ⟨hnodes, -, hmarks⟩
        exact hzero.2 (by omega)
    · -- a graph that is cleared has had nodes, and all of them are counted
      rw [← hreduce] at hcleared
      have hpos := size_pos hempty
      have hnone : g.reduce.graph.size = 0 := by rw [hcleared]; rfl
      have hnodes : g.reduce.summary.removedNodes + g.reduce.graph.size = 0 + g.size :=
        hbalances.nodes
      refine iff_of_false (fun hsame => ?_) (fun hzero => ?_)
      · rw [hsame] at hnone
        omega
      · have := hzero.1
        omega

/-- What any reduction leaves and counts.  Nodes and edges that are left were there,
    with the same labels, and with marks that they had; edges are between the same
    nodes, have the same guards and actions, and come in the same order.  The
    acceptance condition is the same.  Nodes and edges that are not left were
    counted, each once.  The graph is the same as before, links and holes included,
    if nothing at all was counted, and only then. -/
theorem reduce_accounts (h : g.Reached) :
    g.Keeps g.reduce.graph
      ∧ g.reduce.summary.removedNodes + g.reduce.graph.size = g.size
      ∧ g.reduce.summary.removedEdges + g.reduce.graph.edgeCount = g.edgeCount
      ∧ (g.reduce.graph = g ↔ g.reduce.summary.removedNodes = 0
          ∧ g.reduce.summary.removedEdges = 0 ∧ g.reduce.summary.clearedMarks = 0) := by
  obtain ⟨R, C, D, hshrunk⟩ := h.linked.reduce_shrunk
  obtain ⟨n, hbalances⟩ := h.linked.reduce_balances
  refine ⟨hshrunk.keeps h.linked, ?_, ?_, h.linked.reduce_graph_eq_iff⟩
  · rw [hbalances.nodes]
    exact Nat.zero_add _
  · rw [hbalances.edges]
    exact Nat.zero_add _

/-- A loop that an edge with a mark leads to, and a node without edges that two edges
    lead to.  Number 1 is gone. -/
def loopBehindExit : Graph String :=
  ofChanges { carrier := .edges }
    [.addNode { label := some "start" }, .addNode {}, .addNode {}, .addNode {},
      .addEdge 0 3 {} "-" {}, .addEdge 0 2 {} "go" { marks := .full 1 },
      .addEdge 2 3 {} "-" {}, .addEdge 2 2 {} "-" { marks := .full 1 }, .addEdge 0 1 {} "-" {},
      .removeNode 1]

/-- One node goes with two edges, and the mark of the edge to the loop. -/
theorem reduce_accounts_loopBehindExit :
    loopBehindExit.Reached
      ∧ loopBehindExit.Keeps loopBehindExit.reduce.graph
      ∧ loopBehindExit.reduce.summary = ⟨2, 1, 2, 1⟩
      ∧ 1 + loopBehindExit.reduce.graph.size = loopBehindExit.size
      ∧ 2 + loopBehindExit.reduce.graph.edgeCount = loopBehindExit.edgeCount
      ∧ loopBehindExit.reduce.graph ≠ loopBehindExit := by
  have hreached : loopBehindExit.Reached := reached_ofChanges _ _
  have hsummary : loopBehindExit.reduce.summary = ⟨2, 1, 2, 1⟩ := rfl
  obtain ⟨hkeeps, hnodes, hedges, hsame⟩ := reduce_accounts hreached
  rw [hsummary] at hnodes hedges hsame
  refine ⟨hreached, hkeeps, hsummary, hnodes, hedges, ?_⟩
  intro heq
  exact absurd (hsame.1 heq).1 Nat.one_ne_zero

end Graph
end LinearTime
