/-
  LinearTime.Proofs.ReductionSteps — what the steps of a reduction do to a graph.

  However many nodes are removed and marks are cleared, the result is described
  by three sets: the nodes `R` that were removed, the nodes `C` and the edges `D`
  whose marks were cleared.  Nothing else is lost but the edges at removed nodes
  (`Shrunk`), and steps that follow each other have the unions of their sets.

  The content of a graph is the number of its nodes and marks.  What a step
  counts as changed it takes from the content, and a step that counts nothing
  changes nothing (`Steps`).  So as many passes as there is content, and one
  more, reach a pass that changes nothing.

  Main results:
    * `Steps.of_absent`, `Steps.of_shrunk` — when something counts as a step.
    * `clearNode_steps`, `clearEdge_steps`, `removeNode_steps` — the single steps.
    * `Steps.trans`, `Steps.foldl` — steps after each other.
    * `pass_steps` — a whole pass.
    * `repeatPass_fixed` — the passes end with one that changes nothing.
-/

import LinearTime.Proofs.GraphRuns

namespace LinearTime

variable {α : Type}

/-! ## §1. Smaller graphs -/

/-- The same label without marks. -/
def Attributes.cleared (a : Attributes) : Attributes := { a with marks := .empty }

/-- The same edge without marks. -/
def Graph.Edge.cleared (e : Graph.Edge α) : Graph.Edge α :=
  { e with attributes := e.attributes.cleared }

@[simp] theorem Attributes.cleared_cleared (a : Attributes) : a.cleared.cleared = a.cleared := rfl

@[simp] theorem Attributes.cleared_marks_size (a : Attributes) : a.cleared.marks.size = 0 := rfl

@[simp] theorem Graph.Edge.cleared_attributes (e : Graph.Edge α) :
    e.cleared.attributes = e.attributes.cleared := rfl

/-- Clearing changes nothing where there are no marks. -/
theorem Attributes.cleared_eq_self {a : Attributes} (h : a.marks.size = 0) : a.cleared = a := by
  obtain ⟨⟨l, hl⟩, label⟩ := a
  obtain rfl : l = [] := List.length_eq_zero_iff.1 h
  rfl

namespace Graph

open scoped Classical in
/-- What is left when the nodes in `R` are removed with their edges, and the marks
    of the nodes in `C` and of the edges in `D` are cleared. -/
structure Shrunk (g g' : Graph α) (R C D : Nat → Prop) : Prop where
  linked : g'.Linked
  acceptance : g'.acceptance = g.acceptance
  node : ∀ v, g'.attributes? v = if R v then none
    else if C v then (g.attributes? v).map Attributes.cleared else g.attributes? v
  edge : ∀ i, g'.bareEdge? i = (g.bareEdge? i).bind fun e =>
    if R e.source ∨ R e.target then none else some (if D i then e.cleared else e)

variable {g g' g'' : Graph α} {R C D R' C' D' : Nat → Prop}

/-- No edge is left at nodes that are not there. -/
theorem Linked.bareEdge?_ends (h : g.Linked) {i : Nat} {e : Edge α}
    (he : g.bareEdge? i = some e) :
    (∃ a, g.attributes? e.source = some a) ∧ ∃ a, g.attributes? e.target = some a := by
  obtain ⟨f, hf, rfl⟩ := Option.map_eq_some_iff.1 he
  have hsource := h.source i f hf
  have htarget := h.target i f hf
  rw [hasNode_eq_isSome] at hsource htarget
  exact ⟨Option.isSome_iff_exists.1 hsource, Option.isSome_iff_exists.1 htarget⟩

/-- Removing and clearing what is not there leaves the graph as it is. -/
theorem Shrunk.of_absent (h : g.Linked) (hR : ∀ v, R v → g.attributes? v = none)
    (hC : ∀ v, C v → g.attributes? v = none) (hD : ∀ i, D i → g.bareEdge? i = none) :
    g.Shrunk g R C D := by
  classical
  refine ⟨h, rfl, fun v => ?_, fun i => ?_⟩
  · by_cases hv : R v
    · rw [if_pos hv, hR v hv]
    · by_cases hv' : C v
      · rw [if_neg hv, if_pos hv', hC v hv']
        rfl
      · rw [if_neg hv, if_neg hv']
  · cases he : g.bareEdge? i with
    | none => rfl
    | some e =>
      -- the ends of an edge are there, so neither is in `R`
      obtain ⟨⟨a, ha⟩, b, hb⟩ := h.bareEdge?_ends he
      have hs : ¬ R e.source := fun hs => by simp [hR _ hs] at ha
      have ht : ¬ R e.target := fun ht => by simp [hR _ ht] at hb
      have hi : ¬ D i := fun hi => by simp [hD i hi] at he
      simp [hs, ht, hi]

/-- A graph is what is left of itself if nothing is taken away. -/
theorem Shrunk.refl (h : g.Linked) :
    g.Shrunk g (fun _ => False) (fun _ => False) (fun _ => False) :=
  .of_absent h (fun _ => False.elim) (fun _ => False.elim) fun _ => False.elim

/-- What is left of what is left: all that was removed or cleared in either step. -/
theorem Shrunk.trans (h : g.Shrunk g' R C D) (h' : g'.Shrunk g'' R' C' D') :
    g.Shrunk g'' (fun v => R v ∨ R' v) (fun v => C v ∨ C' v) (fun i => D i ∨ D' i) := by
  -- A node is left by both if it is left by each, and so are its marks; edges likewise.
  classical
  refine ⟨h'.linked, h'.acceptance.trans h.acceptance, fun v => ?_, fun i => ?_⟩
  · rw [h'.node, h.node]
    by_cases hR' : R' v
    · simp [hR']
    · by_cases hR : R v
      · simp [hR, hR']
      · by_cases hC : C v <;> by_cases hC' : C' v
        · simp [hR, hR', hC, hC', Function.comp_def]
        · simp [hR, hR', hC, hC']
        · simp [hR, hR', hC, hC']
        · simp [hR, hR', hC, hC']
  · rw [h'.edge, h.edge]
    cases g.bareEdge? i with
    | none => rfl
    | some e =>
      by_cases hR : R e.source ∨ R e.target
      · rcases hR with hR | hR <;> simp [hR]
      · obtain ⟨hs, ht⟩ := not_or.1 hR
        by_cases hD : D i
        · by_cases hR' : R' e.source ∨ R' e.target
          · rcases hR' with hR' | hR' <;> simp [hs, ht, hD, hR', Edge.cleared]
          · obtain ⟨hs', ht'⟩ := not_or.1 hR'
            simp [hs, ht, hs', ht', hD, Edge.cleared, Attributes.cleared]
        · by_cases hR' : R' e.source ∨ R' e.target
          · rcases hR' with hR' | hR' <;> simp [hs, ht, hD, hR']
          · obtain ⟨hs', ht'⟩ := not_or.1 hR'
            simp [hs, ht, hs', ht', hD]

/-! ## §2. Content -/

/-- A node counts once, and once for every mark. -/
def nodeContent (g : Graph α) (v : Nat) : Nat :=
  ((g.attributes? v).map fun a => a.marks.size + 1).getD 0

/-- An edge counts once for every mark. -/
def edgeContent (g : Graph α) (i : Nat) : Nat :=
  ((g.bareEdge? i).map fun e => e.attributes.marks.size).getD 0

/-- The number of nodes and marks. -/
def content (g : Graph α) : Nat :=
  ∑ v ∈ Finset.range g.nodes.size, g.nodeContent v
    + ∑ i ∈ Finset.range g.edges.size, g.edgeContent i

/-- The sums over what is there are sums over all indices. -/
theorem content_eq (g : Graph α) : g.content = g.size + g.markCount := by
  -- The sum over all slots is the sum over those that hold something.
  have hnodes (n : Nat) : ∑ v ∈ Finset.range n, g.nodeContent v
      = ((List.range n).filter g.hasNode).length
        + (((List.range n).filter g.hasNode).map fun v =>
            ((g.node? v).map (·.attributes.marks.size)).getD 0).sum := by
    induction n with
    | zero => rfl
    | succ n ih =>
      rw [Finset.sum_range_succ, ih, List.range_succ, List.filter_append]
      unfold nodeContent attributes? hasNode
      cases hn : g.node? n with
      | none => simp [hn]
      | some m =>
        simp [hn]
        omega
  have hedges (n : Nat) : ∑ i ∈ Finset.range n, g.edgeContent i
      = (((List.range n).filter fun i => (g.edge? i).isSome).map fun i =>
          ((g.edge? i).map (·.attributes.marks.size)).getD 0).sum := by
    induction n with
    | zero => rfl
    | succ n ih =>
      rw [Finset.sum_range_succ, ih, List.range_succ, List.filter_append]
      unfold edgeContent bareEdge?
      cases he : g.edge? n with
      | none => simp [he]
      | some e => simp [he, Edge.bare]
  unfold content size markCount nodeIndices edgeIndices
  rw [hnodes, hedges, List.sum_eq_foldr, List.sum_eq_foldr, Nat.add_assoc]

/-- A sum from which something is taken at one place, and nothing is added. -/
theorem sum_range_add_le {n d x : Nat} {f f' : Nat → Nat} (hx : d = 0 ∨ x < n)
    (hle : ∀ y, f' y ≤ f y) (hd : f' x + d ≤ f x) :
    ∑ y ∈ Finset.range n, f' y + d ≤ ∑ y ∈ Finset.range n, f y := by
  rcases hx with rfl | hx
  · rw [Nat.add_zero]
    exact Finset.sum_le_sum fun y _ => hle y
  · have hmem : x ∈ Finset.range n := Finset.mem_range.2 hx
    rw [← Finset.add_sum_erase _ _ hmem, ← Finset.add_sum_erase _ _ hmem]
    have hrest : ∑ y ∈ (Finset.range n).erase x, f' y ≤ ∑ y ∈ (Finset.range n).erase x, f y :=
      Finset.sum_le_sum fun y _ => hle y
    omega

/-- There is nothing beyond the last slot of a node. -/
theorem nodeContent_eq_zero {v : Nat} (h : g.nodes.size ≤ v) : g.nodeContent v = 0 := by
  unfold nodeContent attributes?
  cases hn : g.node? v with
  | none => rfl
  | some n =>
    have := node?_lt hn
    omega

theorem edgeContent_eq_zero {i : Nat} (h : g.edges.size ≤ i) : g.edgeContent i = 0 := by
  unfold edgeContent bareEdge?
  cases he : g.edge? i with
  | none => rfl
  | some e =>
    have := edge?_lt he
    omega

/-- Shrinking adds no content, and takes away at least what is missing at one
    node and at one edge. -/
theorem Shrunk.content_le (h : g.Shrunk g' R C D) (hnodes : g'.nodes.size = g.nodes.size)
    (hedges : g'.edges.size = g.edges.size) {v i c d : Nat}
    (hc : g'.nodeContent v + c ≤ g.nodeContent v) (hd : g'.edgeContent i + d ≤ g.edgeContent i) :
    g'.content + (c + d) ≤ g.content := by
  have hnode (w : Nat) : g'.nodeContent w ≤ g.nodeContent w := by
    unfold nodeContent
    rw [h.node]
    split
    · exact Nat.zero_le _
    · split
      · cases g.attributes? w <;> simp
      · exact le_refl _
  have hedge (j : Nat) : g'.edgeContent j ≤ g.edgeContent j := by
    unfold edgeContent
    rw [h.edge]
    cases g.bareEdge? j with
    | none => exact le_refl _
    | some e =>
      simp only [Option.bind_some]
      split
      · exact Nat.zero_le _
      · split
        · simp
        · exact le_refl _
  -- Slots out of range have no content to lose.
  have hcv : c = 0 ∨ v < g.nodes.size := by
    by_contra hnot
    have := nodeContent_eq_zero (g := g) (v := v) (by omega)
    omega
  have hdi : d = 0 ∨ i < g.edges.size := by
    by_contra hnot
    have := edgeContent_eq_zero (g := g) (i := i) (by omega)
    omega
  have hsumn := sum_range_add_le hcv hnode hc
  have hsume := sum_range_add_le hdi hedge hd
  unfold content
  rw [hnodes, hedges]
  omega

end Graph

/-! ## §3. Steps -/

namespace Reduction

/-- What happens between two stages of a reduction. -/
structure Steps (r r' : Reduction α) (R C D : Nat → Prop) : Prop where
  shrunk : r.graph.Shrunk r'.graph R C D
  nodes_size : r'.graph.nodes.size = r.graph.nodes.size
  edges_size : r'.graph.edges.size = r.graph.edges.size
  changes_le : r.changes ≤ r'.changes
  content_le : r'.changes + r'.graph.content ≤ r.changes + r.graph.content
  idle : r'.changes = r.changes → (∀ v, R v → r.graph.attributes? v = none)
    ∧ (∀ v, C v → ∀ a, r.graph.attributes? v = some a → a.marks.size = 0)
    ∧ ∀ i, D i → ∀ e, r.graph.bareEdge? i = some e → e.attributes.marks.size = 0

variable {r r' r'' : Reduction α} {R C D R' C' D' : Nat → Prop}

/-- Steps that count no change leave nodes and edges as they are. -/
theorem Steps.unchanged (h : Steps r r' R C D) (hlinked : r.graph.Linked)
    (hidle : r'.changes = r.changes) :
    (∀ v, r'.graph.attributes? v = r.graph.attributes? v)
      ∧ ∀ i, r'.graph.bareEdge? i = r.graph.bareEdge? i := by
  obtain ⟨hR, hC, hD⟩ := h.idle hidle
  refine ⟨fun v => ?_, fun i => ?_⟩
  · rw [h.shrunk.node]
    split
    next hv => exact (hR v hv).symm
    next =>
      split
      next hv =>
        cases ha : r.graph.attributes? v with
        | none => rfl
        | some a => rw [Option.map_some, Attributes.cleared_eq_self (hC v hv a ha)]
      next => rfl
  · rw [h.shrunk.edge]
    cases he : r.graph.bareEdge? i with
    | none => rfl
    | some e =>
      obtain ⟨⟨a, ha⟩, b, hb⟩ := hlinked.bareEdge?_ends he
      -- An edge whose end is removed was not there before, since its ends are nodes.
      have hends : ¬ (R e.source ∨ R e.target) := by
        rintro (hs | ht)
        · rw [hR _ hs] at ha
          cases ha
        · rw [hR _ ht] at hb
          cases hb
      rw [Option.bind_some, if_neg hends]
      split
      next hi =>
        unfold Graph.Edge.cleared
        rw [Attributes.cleared_eq_self (hD i hi e he)]
      next => rfl

/-- Removing and clearing what is not there takes no step. -/
theorem Steps.of_absent (h : r.graph.Linked) (hR : ∀ v, R v → r.graph.attributes? v = none)
    (hC : ∀ v, C v → r.graph.attributes? v = none)
    (hD : ∀ i, D i → r.graph.bareEdge? i = none) : Steps r r R C D :=
  ⟨.of_absent h hR hC hD, rfl, rfl, le_refl _, le_refl _, fun _ =>
    ⟨hR, fun v hv a ha => absurd ((hC v hv).symm.trans ha) (by simp),
      fun i hi e he => absurd ((hD i hi).symm.trans he) (by simp)⟩⟩

theorem Steps.refl (h : r.graph.Linked) :
    Steps r r (fun _ => False) (fun _ => False) (fun _ => False) :=
  .of_absent h (fun _ => False.elim) (fun _ => False.elim) fun _ => False.elim

/-- A step that counts as changes what is missing at one node and at one edge
    afterwards. -/
theorem Steps.of_shrunk {v i c d : Nat} (h : r.graph.Shrunk r'.graph R C D)
    (hnodes : r'.graph.nodes.size = r.graph.nodes.size)
    (hedges : r'.graph.edges.size = r.graph.edges.size)
    (hchanges : r'.changes = r.changes + (c + d))
    (hc : r'.graph.nodeContent v + c ≤ r.graph.nodeContent v)
    (hd : r'.graph.edgeContent i + d ≤ r.graph.edgeContent i)
    (hidle : c = 0 → d = 0 → (∀ v, R v → r.graph.attributes? v = none)
      ∧ (∀ v, C v → ∀ a, r.graph.attributes? v = some a → a.marks.size = 0)
      ∧ ∀ i, D i → ∀ e, r.graph.bareEdge? i = some e → e.attributes.marks.size = 0) :
    Steps r r' R C D := by
  have hcontent := h.content_le hnodes hedges hc hd
  exact ⟨h, hnodes, hedges, by omega, by omega,
    fun hsame => hidle (by omega) (by omega)⟩

/-- Two steps after each other remove and clear what either of them does, and count both. -/
theorem Steps.trans (hlinked : r.graph.Linked) (h : Steps r r' R C D)
    (h' : Steps r' r'' R' C' D') :
    Steps r r'' (fun v => R v ∨ R' v) (fun v => C v ∨ C' v) (fun i => D i ∨ D' i) := by
  refine ⟨h.shrunk.trans h'.shrunk, h'.nodes_size.trans h.nodes_size,
    h'.edges_size.trans h.edges_size, le_trans h.changes_le h'.changes_le,
    le_trans h'.content_le h.content_le, fun hidle => ?_⟩
  have hle := h.changes_le
  have hle' := h'.changes_le
  -- Nothing was counted in all, so nothing was counted in either part.
  have hidle₁ : r'.changes = r.changes := by omega
  obtain ⟨hR, hC, hD⟩ := h.idle hidle₁
  obtain ⟨hR', hC', hD'⟩ := h'.idle (by omega)
  obtain ⟨hnode, hedge⟩ := h.unchanged hlinked hidle₁
  refine ⟨fun v hv => ?_, fun v hv a ha => ?_, fun i hi e he => ?_⟩
  · rcases hv with hv | hv
    · exact hR v hv
    · rw [← hnode]
      exact hR' v hv
  · rcases hv with hv | hv
    · exact hC v hv a ha
    · exact hC' v hv a (by rw [hnode]; exact ha)
  · rcases hi with hi | hi
    · exact hD i hi e he
    · exact hD' i hi e (by rw [hedge]; exact he)

/-- Only which indices were removed or cleared matters, not how they are described. -/
theorem Steps.congr {S B E : Nat → Prop} (h : Steps r r' R C D) (hR : ∀ v, S v ↔ R v)
    (hC : ∀ v, B v ↔ C v) (hD : ∀ i, E i ↔ D i) : Steps r r' S B E := by
  rwa [show S = R from funext fun v => propext (hR v),
    show B = C from funext fun v => propext (hC v),
    show E = D from funext fun i => propext (hD i)]

/-- The same step for each of some things, one after the other. -/
theorem Steps.foldl {β : Type} {step : Reduction α → β → Reduction α}
    {R C D : β → Nat → Prop}
    (hstep : ∀ r b, r.graph.Linked → Steps r (step r b) (R b) (C b) (D b)) (bs : List β)
    (h : r.graph.Linked) :
    Steps r (bs.foldl step r) (fun v => ∃ b ∈ bs, R b v) (fun v => ∃ b ∈ bs, C b v)
      (fun i => ∃ b ∈ bs, D b i) := by
  induction bs generalizing r with
  | nil =>
    refine (Steps.refl h).congr (fun v => ?_) (fun v => ?_) fun i => ?_ <;> simp
  | cons b bs ih =>
    have hb := hstep r b h
    refine (hb.trans h (ih hb.shrunk.linked)).congr (fun v => ?_) (fun v => ?_) fun i => ?_ <;>
      simp [List.mem_cons]

theorem changes_cleared (r : Reduction α) (g : Graph α) (n : Nat) :
    (r.cleared g n).changes = r.changes + n := (Nat.add_assoc _ _ _).symm

/-- Clearing the marks of one node. -/
theorem clearNode_steps (h : r.graph.Linked) (v : Nat) :
    Steps r (r.clearNode v) (fun _ => False) (· = v) (fun _ => False) := by
  unfold clearNode
  split
  next hnone =>
    have hgone := Graph.attributes?_eq_none hnone
    exact .of_absent h (fun _ => False.elim) (fun w hw => hw ▸ hgone) fun _ => False.elim
  next n hn =>
    have ha := Graph.attributes?_of_node? hn
    have hnode (w : Nat) : (r.graph.modifyNodeAttributes v Attributes.cleared).attributes? w
        = if w = v then (r.graph.attributes? w).map Attributes.cleared
          else r.graph.attributes? w := Graph.attributes?_modifyNodeAttributes _ _ _ _
    show Steps r (r.cleared (r.graph.modifyNodeAttributes v Attributes.cleared) _) _ _ _
    have hshrunk : r.graph.Shrunk (r.graph.modifyNodeAttributes v Attributes.cleared)
        (fun _ => False) (· = v) (fun _ => False) := by
      refine ⟨h.modifyNodeAttributes v _, rfl, fun w => ?_, fun i => ?_⟩
      · rw [if_neg id, hnode]
        by_cases hw : w = v <;> simp [hw]
      · simp [Graph.bareEdge?, Graph.modifyNodeAttributes, Graph.edge?_modifyNode]
    -- The marks that go are counted, and they are all that the node loses.
    have hcontent : (r.graph.modifyNodeAttributes v Attributes.cleared).nodeContent v
        + n.attributes.marks.size ≤ r.graph.nodeContent v := by
      unfold Graph.nodeContent
      rw [hnode, if_pos rfl, ha]
      simp [Nat.add_comm]
    refine .of_shrunk (i := 0) (d := 0) hshrunk ?_ rfl (changes_cleared r _ _) hcontent
      (le_refl _) fun hzero _ => ⟨fun _ => False.elim, ?_, fun _ => False.elim⟩
    · simp [cleared, Graph.modifyNodeAttributes, Graph.modifyNode]
    · rintro w rfl a ha'
      obtain rfl := Option.some.inj (ha.symm.trans ha')
      exact hzero

/-- Clearing the marks of one edge. -/
theorem clearEdge_steps (h : r.graph.Linked) (i : Nat) :
    Steps r (r.clearEdge i) (fun _ => False) (fun _ => False) (· = i) := by
  unfold clearEdge
  split
  next hnone =>
    have hgone := Graph.bareEdge?_eq_none hnone
    exact .of_absent h (fun _ => False.elim) (fun _ => False.elim) fun j hj => hj ▸ hgone
  next e hn =>
    have he := Graph.bareEdge?_of_edge? hn
    have hedge (j : Nat) : (r.graph.modifyEdgeAttributes i Attributes.cleared).bareEdge? j
        = if j = i then (r.graph.bareEdge? j).map Graph.Edge.cleared
          else r.graph.bareEdge? j := Graph.bareEdge?_modifyEdgeAttributes _ _ _ _
    show Steps r (r.cleared (r.graph.modifyEdgeAttributes i Attributes.cleared) _) _ _ _
    have hshrunk : r.graph.Shrunk (r.graph.modifyEdgeAttributes i Attributes.cleared)
        (fun _ => False) (fun _ => False) (· = i) := by
      refine ⟨h.modifyEdgeAttributes i _, rfl, fun w => ?_, fun j => ?_⟩
      · simp [Graph.attributes?, Graph.modifyEdgeAttributes, Graph.node?_modifyEdge]
      · rw [hedge]
        cases r.graph.bareEdge? j <;> by_cases hj : j = i <;> simp [hj]
    -- The marks that go are counted, and they are all that the edge loses.
    have hcontent : (r.graph.modifyEdgeAttributes i Attributes.cleared).edgeContent i
        + e.attributes.marks.size ≤ r.graph.edgeContent i := by
      unfold Graph.edgeContent
      rw [hedge, if_pos rfl, he]
      simp [Graph.Edge.bare]
    refine .of_shrunk (v := 0) (c := 0) hshrunk rfl ?_
      (by rw [changes_cleared, Nat.zero_add]) (le_refl _) hcontent
      fun _ hzero => ⟨fun _ => False.elim, fun _ => False.elim, ?_⟩
    · simp [cleared, Graph.modifyEdgeAttributes, Graph.modifyEdge]
    · rintro j rfl f hf
      obtain rfl := Option.some.inj (he.symm.trans hf)
      exact hzero

/-- Removing edges leaves their slots. -/
theorem removeEdges_size (g : Graph α) (is : List Nat) :
    (is.foldl Graph.removeEdge g).nodes.size = g.nodes.size
      ∧ (is.foldl Graph.removeEdge g).edges.size = g.edges.size := by
  induction is generalizing g with
  | nil => exact ⟨rfl, rfl⟩
  | cons i is ih =>
    rw [List.foldl_cons, (ih _).1, (ih _).2]
    unfold Graph.removeEdge
    split
    next => exact ⟨rfl, rfl⟩
    next e he =>
      cases e.prev <;> cases e.next <;> simp [Graph.modifyEdge, Graph.modifyNode]

/-- Removing a node leaves its slot and those of its edges. -/
theorem removeNode?_size {g g' : Graph α} {v n : Nat} (hg' : g.removeNode? v = some (n, g')) :
    g'.nodes.size = g.nodes.size ∧ g'.edges.size = g.edges.size := by
  unfold Graph.removeNode? at hg'
  split at hg'
  next =>
    obtain ⟨-, rfl⟩ := Prod.mk.inj (Option.some.inj hg')
    obtain ⟨hnodes, hedges⟩ := removeEdges_size g (g.incident v)
    exact ⟨by simpa using hnodes, hedges⟩
  next => cases hg'

/-- Removing one node. -/
theorem removeNode_steps (h : r.graph.Linked) (v : Nat) :
    Steps r (r.removeNode v) (· = v) (fun _ => False) (fun _ => False) := by
  unfold removeNode
  split
  next hnone =>
    have hgone := Graph.attributes?_of_removeNode?_none hnone
    exact .of_absent h (fun w hw => hw ▸ hgone) (fun _ => False.elim) fun _ => False.elim
  next edges graph hsome =>
    obtain ⟨hv, -, hedge, hnode, hacceptance⟩ := Graph.removeNode?_eq_some hsome
    obtain ⟨hnodes, hedges⟩ := removeNode?_size hsome
    obtain ⟨a, ha⟩ : ∃ a, r.graph.attributes? v = some a := by
      rw [Graph.hasNode_eq_isSome] at hv
      exact Option.isSome_iff_exists.1 hv
    have hshrunk : r.graph.Shrunk graph (· = v) (fun _ => False) (fun _ => False) := by
      refine ⟨h.removeNode? hsome, hacceptance, fun w => ?_, fun i => ?_⟩
      · rw [hnode]
        by_cases hw : w = v
        · simp [hw]
        · simp [hw, Ne.symm hw]
      · rw [hedge]
        cases he : r.graph.bareEdge? i with
        | none => simp
        | some e =>
          have hmem : i ∈ r.graph.incident v ↔ e.source = v ∨ e.target = v := by
            rw [Graph.mem_incident, he]
            simp
          simp [hmem]
    have hcontent : graph.nodeContent v + 1 ≤ r.graph.nodeContent v := by
      unfold Graph.nodeContent
      rw [hnode, if_pos rfl, ha]
      simp
    -- the edges that go lose their marks with them, which nobody counts
    have hless : graph.edgeContent 0 + 0 ≤ r.graph.edgeContent 0 := by
      unfold Graph.edgeContent
      rw [hedge]
      split <;> simp
    refine .of_shrunk hshrunk hnodes hedges ?_ hcontent hless fun hone _ => absurd hone (by simp)
    exact Nat.add_right_comm _ _ _

/-! ## §4. Passes -/

end Reduction

namespace Graph

/-- The edge leaves its component, and edges carry the marks. -/
def Exit (g : Graph α) (i : Nat) : Prop :=
  g.acceptance.carrier = .edges ∧ ∃ c ∈ g.components, ∃ e, (i, e) ∈ g.exitEdges c

/-- The component is removed: it is neither accepting nor left by an edge. -/
def Dead (g : Graph α) (c : Component) : Prop :=
  g.isAccepting c = false ∧ g.isTerminal c = true

/-- The marks of the component are cleared: it is passed, but no run stays there
    and is accepting. -/
def Passed (g : Graph α) (c : Component) : Prop :=
  ¬ g.Dead c ∧ (g.isAccepting c = false ∨ g.isTransient c = true)

/-- The node is in a component that is removed. -/
def NodeRemoved (g : Graph α) (v : Nat) : Prop := ∃ c ∈ g.components, g.Dead c ∧ v ∈ c

/-- The node is in a component whose marks are cleared. -/
def NodeCleared (g : Graph α) (v : Nat) : Prop := ∃ c ∈ g.components, g.Passed c ∧ v ∈ c

/-- The edge starts in a component whose marks are cleared. -/
def EdgeCleared (g : Graph α) (i : Nat) : Prop :=
  ∃ c ∈ g.components, g.Passed c ∧ ∃ e, (i, e) ∈ g.edgesOf c

/-- A component without a way out and without all marks is to be removed. -/
theorem verdict?_dead {g : Graph α} {c : Component} (h : g.Dead c) :
    g.verdict? c = some (.remove c.toList) := by
  unfold verdict?
  simp [h.1, h.2]

/-- A component that no run stays in is to be cleared. -/
theorem verdict?_passed {g : Graph α} {c : Component} (h : g.Passed c) :
    g.verdict? c = some (.clear c.toList ((g.edgesOf c).map (·.1))) := by
  obtain ⟨hdead, hpassed⟩ := h
  unfold Dead at hdead
  unfold verdict?
  rcases hpassed with hacc | htransient
  · simp_all
  · cases hacc : g.isAccepting c <;> simp_all

/-- Any other component stays as it is. -/
theorem verdict?_none {g : Graph α} {c : Component} (hdead : ¬ g.Dead c)
    (hpassed : ¬ g.Passed c) : g.verdict? c = none := by
  have hneither : ¬ (g.isAccepting c = false ∨ g.isTransient c = true) :=
    fun h => hpassed ⟨hdead, h⟩
  obtain ⟨hacc, htransient⟩ := not_or.1 hneither
  unfold verdict?
  simp [hacc, htransient]

end Graph

namespace Reduction

variable {r : Reduction α}

/-- Clearing the edges between components clears exactly these. -/
theorem clearExits_steps (h : r.graph.Linked) :
    Steps r r.clearExits (fun _ => False) (fun _ => False) r.graph.Exit := by
  unfold clearExits
  split
  next hnodes =>
    refine (Steps.refl h).congr (fun _ => Iff.rfl) (fun _ => Iff.rfl) fun i => ?_
    unfold Graph.Exit
    simp [hnodes]
  next hedges =>
    refine (Steps.foldl (fun r i hr => clearEdge_steps hr i) _ h).congr
      (fun v => by simp) (fun v => by simp) fun i => ?_
    unfold Graph.Exit
    simp [hedges, List.mem_flatMap, List.mem_map]

/-- What a verdict removes and clears. -/
theorem carryOut_steps (h : r.graph.Linked) (d : Graph.Verdict) :
    Steps r (r.carryOut d)
      (fun v => ∃ nodes, d = .remove nodes ∧ v ∈ nodes)
      (fun v => ∃ nodes edges, d = .clear nodes edges ∧ v ∈ nodes)
      (fun i => ∃ nodes edges, d = .clear nodes edges ∧ i ∈ edges) := by
  cases d with
  | remove nodes =>
    refine (Steps.foldl (fun r v hr => removeNode_steps hr v) nodes h).congr
      (fun v => ?_) (fun v => ?_) fun i => ?_ <;> simp
  | clear nodes edges =>
    have hnodes := Steps.foldl (fun (r : Reduction α) v hr => clearNode_steps hr v) nodes h
    have hedges := Steps.foldl (fun (r : Reduction α) i hr => clearEdge_steps hr i) edges
      hnodes.shrunk.linked
    refine (hnodes.trans h hedges).congr (fun v => ?_) (fun v => ?_) fun i => ?_ <;> simp

/-- Carrying out the verdicts on all components. -/
theorem verdicts_steps (h : r.graph.Linked) :
    Steps r ((r.graph.components.filterMap r.graph.verdict?).foldl carryOut r)
      r.graph.NodeRemoved r.graph.NodeCleared r.graph.EdgeCleared := by
  -- A verdict tells which kind of component it is about, and which one.
  have hverdict (c : Component) (d : Graph.Verdict) (hd : r.graph.verdict? c = some d) :
      (r.graph.Dead c ∧ d = .remove c.toList)
        ∨ (r.graph.Passed c ∧ d = .clear c.toList ((r.graph.edgesOf c).map (·.1))) := by
    by_cases hdead : r.graph.Dead c
    · rw [Graph.verdict?_dead hdead] at hd
      exact .inl ⟨hdead, (Option.some.inj hd).symm⟩
    · by_cases hpassed : r.graph.Passed c
      · rw [Graph.verdict?_passed hpassed] at hd
        exact .inr ⟨hpassed, (Option.some.inj hd).symm⟩
      · rw [Graph.verdict?_none hdead hpassed] at hd
        cases hd
  refine (Steps.foldl (fun r d hr => carryOut_steps hr d) _ h).congr
    (fun v => ?_) (fun v => ?_) fun i => ?_
  · constructor
    · rintro ⟨c, hc, hdead, hv⟩
      exact ⟨_, List.mem_filterMap.2 ⟨c, hc, Graph.verdict?_dead hdead⟩, _, rfl, hv⟩
    · rintro ⟨d, hd, nodes, rfl, hv⟩
      obtain ⟨c, hc, hd⟩ := List.mem_filterMap.1 hd
      rcases hverdict c _ hd with ⟨hdead, heq⟩ | ⟨-, heq⟩
      · injection heq with heq
        rw [heq] at hv
        exact ⟨c, hc, hdead, hv⟩
      · cases heq
  · constructor
    · rintro ⟨c, hc, hpassed, hv⟩
      exact ⟨_, List.mem_filterMap.2 ⟨c, hc, Graph.verdict?_passed hpassed⟩, _, _, rfl, hv⟩
    · rintro ⟨d, hd, nodes, edges, rfl, hv⟩
      obtain ⟨c, hc, hd⟩ := List.mem_filterMap.1 hd
      rcases hverdict c _ hd with ⟨-, heq⟩ | ⟨hpassed, heq⟩
      · cases heq
      · injection heq with heq
        rw [heq] at hv
        exact ⟨c, hc, hpassed, hv⟩
  · constructor
    · rintro ⟨c, hc, hpassed, e, he⟩
      exact ⟨_, List.mem_filterMap.2 ⟨c, hc, Graph.verdict?_passed hpassed⟩, _, _, rfl,
        List.mem_map.2 ⟨(i, e), he, rfl⟩⟩
    · rintro ⟨d, hd, nodes, edges, rfl, hi⟩
      obtain ⟨c, hc, hd⟩ := List.mem_filterMap.1 hd
      rcases hverdict c _ hd with ⟨-, heq⟩ | ⟨hpassed, heq⟩
      · cases heq
      · injection heq with _ heq
        rw [heq] at hi
        obtain ⟨⟨j, e⟩, he, rfl⟩ := List.mem_map.1 hi
        exact ⟨c, hc, hpassed, e, he⟩

/-- Counting a pass changes neither the graph nor the number of changes. -/
theorem Steps.counted {q : Reduction α} (h : Steps r q R C D) (n : Nat) :
    Steps r { q with summary := { q.summary with passes := n } } R C D :=
  ⟨h.shrunk, h.nodes_size, h.edges_size, h.changes_le, h.content_le, h.idle⟩

/-- A pass: the exits first, then the verdicts on what is left. -/
theorem pass_steps (h : r.graph.Linked) :
    ∃ q : Reduction α, Steps r q (fun _ => False) (fun _ => False) r.graph.Exit
      ∧ Steps q r.pass q.graph.NodeRemoved q.graph.NodeCleared q.graph.EdgeCleared := by
  have hexits := clearExits_steps h
  have hverdicts := verdicts_steps hexits.shrunk.linked
  exact ⟨r.clearExits, hexits, hverdicts.counted _⟩

/-- A pass keeps the links in order. -/
theorem pass_linked (h : r.graph.Linked) : r.pass.graph.Linked := by
  obtain ⟨q, -, hq⟩ := pass_steps h
  exact hq.shrunk.linked

/-- With more passes than there is content the last pass changes nothing. -/
theorem repeatPass_fixed (fuel : Nat) (h : r.graph.Linked) (hfuel : r.graph.content < fuel) :
    ∃ n, repeatPass fuel r = (pass^[n] r).pass
      ∧ (pass^[n] r).pass.changes = (pass^[n] r).changes := by
  induction fuel generalizing r with
  | zero => omega
  | succ fuel ih =>
    unfold repeatPass
    by_cases hsame : r.pass.changes = r.changes
    · refine ⟨0, ?_, hsame⟩
      simp [hsame]
    · obtain ⟨q, hrq, hq⟩ := pass_steps h
      have hgrow := hrq.changes_le
      have hgrow' := hq.changes_le
      have hle := hrq.content_le
      have hle' := hq.content_le
      obtain ⟨n, hn, hfixed⟩ := ih hq.shrunk.linked (by omega)
      refine ⟨n + 1, ?_, hfixed⟩
      simp only [hsame, if_false]
      exact hn

theorem iterate_pass_linked (h : r.graph.Linked) (n : Nat) : (pass^[n] r).graph.Linked := by
  induction n generalizing r with
  | zero => exact h
  | succ n ih => exact ih (pass_linked h)

end Reduction
end LinearTime
