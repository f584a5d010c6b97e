/-
  LinearTime.Proofs.GraphComponents — the components of any graph.

  Whatever was added to a graph and removed from it, its components are told by the
  walks over the edges that are left:

      same component   ⟺  walks lead from each node to the other
      edge from the i-th to the j-th component, i ≠ j   ⟹  j < i
      transient        ⟺  no cycle passes a node of the component
      terminal         ⟺  no walk leads out of the component

  The holes of removed nodes and edges play no part: lists of edges pass over them,
  and a search starts only at nodes that are there.

  Main results:
    * `Linked.place_unique`, `Linked.listed_earlier` — where components are listed.
    * `Linked.isTransient_iff_acyclic`, `Linked.isTerminal_iff_closed` — what is asked
      about a component, in terms of walks.
    * `components_decompose` — all of it, for every graph that comes about.
-/

import LinearTime.Proofs.EdgeLists
import LinearTime.Proofs.GraphRuns

namespace LinearTime
namespace Graph

variable {α : Type} {g : Graph α} {v w : Nat} {c d : Component}

/-! ## §1. Where components are listed -/

/-- The component at a place, as the search lists it. -/
theorem components_getElem? {i : Nat} (hc : g.components[i]? = some c) :
    ∃ l, g.toDigraph.components[i]? = some l ∧ ∀ x, x ∈ c ↔ x ∈ l := by
  unfold components at hc
  rw [List.getElem?_map] at hc
  obtain ⟨l, hl, rfl⟩ := Option.map_eq_some_iff.1 hc
  exact ⟨l, hl, fun x => IndexSet.mem_ofList⟩

/-- A node is listed at one place only. -/
theorem Linked.place_unique (h : g.Linked) {i j : Nat} (hc : g.components[i]? = some c)
    (hd : g.components[j]? = some d) (hvc : v ∈ c) (hvd : v ∈ d) : i = j := by
  obtain ⟨l, hl, hcl⟩ := components_getElem? hc
  obtain ⟨m, hm, hdm⟩ := components_getElem? hd
  exact (Digraph.components_classified h.toDigraph_wellFormed).place_eq hl hm
    ((hcl v).1 hvc) ((hdm v).1 hvd)

/-- An edge from one component to another leads to one that is listed earlier. -/
theorem Linked.listed_earlier (h : g.Linked) {i j : Nat} (hc : g.components[i]? = some c)
    (hd : g.components[j]? = some d) (hne : i ≠ j) (hv : v ∈ c) (hw : w ∈ d)
    (hvw : g.moves.Edge v w) : j < i := by
  obtain ⟨l, hl, hcl⟩ := components_getElem? hc
  obtain ⟨m, hm, hdm⟩ := components_getElem? hd
  obtain ⟨hi, rfl⟩ := List.getElem?_eq_some_iff.1 hl
  obtain ⟨hj, rfl⟩ := List.getElem?_eq_some_iff.1 hm
  by_contra hge
  have hordered := (Digraph.components_classified h.toDigraph_wellFormed).ordered
  rw [h.toDigraph_edge] at hordered
  exact List.pairwise_iff_getElem.1 hordered i j hi hj (by omega) v ((hcl v).1 hv) w
    ((hdm w).1 hw) hvw

/-! ## §2. Cycles and ways out -/

/-- A component is transient if none of its nodes is on a cycle. -/
theorem Linked.isTransient_iff_acyclic (h : g.Linked) (hc : c ∈ g.components) :
    g.isTransient c = true ↔ ∀ v ∈ c, ¬ Relation.TransGen g.moves.Edge v v := by
  constructor
  · intro htransient v hv hcycle
    -- the first edge of the cycle stays in the component
    obtain ⟨w, ⟨i, hi, rfl, rfl⟩, hback⟩ := Relation.TransGen.head'_iff.1 hcycle
    refine (h.isTransient_iff hc hv).1 htransient i ⟨hi, ⟨.refl, .refl⟩, .single ?_, hback⟩
    exact ⟨i, hi, rfl, rfl⟩
  · intro hacyclic
    obtain ⟨v, hv⟩ := h.exists_mem hc
    refine (h.isTransient_iff hc hv).2 fun i hi => ?_
    refine hacyclic _ (h.mem_of_mutual hc hv hi.source) ?_
    exact .head' ⟨i, hi.allowed, rfl, rfl⟩ (hi.target.2.trans hi.source.1)

/-- A component is terminal if nothing else can be reached from it. -/
theorem Linked.isTerminal_iff_closed (h : g.Linked) :
    g.isTerminal c = true ↔ ∀ v ∈ c, ∀ w, g.moves.Reaches v w → w ∈ c := by
  constructor
  · intro hterminal v hv w hvw
    exact h.mem_of_terminal hterminal hv hvw
  · intro hclosed
    refine h.isTerminal_iff.2 fun i e he hsource => ?_
    exact hclosed e.source hsource e.target (.single (moves_edge_iff.2 ⟨i, e, he, rfl, rfl⟩))

/-! ## §3. The components of any graph -/

/-- What is asked of the strongly connected components of a graph. -/
structure Decomposition (g : Graph α) (cs : List Component) : Prop where
  /-- Every node is in exactly one of them. -/
  unique : ∀ v, g.hasNode v = true → ∃! i : Nat, ∃ c, cs[i]? = some c ∧ v ∈ c
  /-- Each has nodes, only such as are there, in strictly ascending order. -/
  nodes : ∀ c ∈ cs, c.toList ≠ [] ∧ c.toList.Pairwise (· < ·)
    ∧ ∀ v ∈ c.toList, g.hasNode v = true
  /-- Two nodes share one if each can be reached from the other. -/
  together : ∀ v w, g.hasNode v = true → g.hasNode w = true →
    ((∃ c ∈ cs, v ∈ c ∧ w ∈ c) ↔ g.moves.Reaches v w ∧ g.moves.Reaches w v)
  /-- Every edge between two of them leads to the one that is listed earlier. -/
  earlier : ∀ (i j : Nat) c d, cs[i]? = some c → cs[j]? = some d → i ≠ j →
    ∀ k e, g.edge? k = some e → e.source ∈ c → e.target ∈ d → j < i
  /-- One is transient if none of its nodes is on a cycle. -/
  transient : ∀ c ∈ cs,
    (g.isTransient c = true ↔ ∀ v ∈ c, ¬ Relation.TransGen g.moves.Edge v v)
  /-- One is terminal if no node outside can be reached from it. -/
  terminal : ∀ c ∈ cs,
    (g.isTerminal c = true ↔ ∀ v ∈ c, ∀ w, w ∉ c → ¬ g.moves.Reaches v w)

/-- The components of every graph are its strongly connected components, in an order
    in which edges lead to earlier ones. -/
theorem components_decompose (h : g.Reached) : g.Decomposition g.components := by
  have hlinked := h.linked
  refine ⟨fun v hv => ?_, fun c hc => ?_, fun v w hv hw => ?_, ?_, fun c hc => ?_, fun c hc => ?_⟩
  · obtain ⟨c, hc, hvc⟩ := hlinked.components_cover hv
    obtain ⟨i, hi⟩ := List.mem_iff_getElem?.1 hc
    refine ⟨i, ⟨c, hi, hvc⟩, ?_⟩
    rintro j ⟨d, hj, hvd⟩
    exact hlinked.place_unique hj hi hvd hvc
  · refine ⟨?_, c.ascending, fun v hv => hlinked.hasNode_of_mem hc hv⟩
    obtain ⟨v, hv⟩ := hlinked.exists_mem hc
    exact List.ne_nil_of_mem hv
  · constructor
    · rintro ⟨c, hc, hvc, hwc⟩
      exact hlinked.mutual_of_mem hc hvc hwc
    · intro hmutual
      obtain ⟨c, hc, hvc⟩ := hlinked.components_cover hv
      exact ⟨c, hc, hvc, hlinked.mem_of_mutual hc hvc hmutual⟩
  -- An edge between two components leads to one that is listed earlier.
  · intro i j c d hc hd hne k e he hs ht
    exact hlinked.listed_earlier hc hd hne hs ht (moves_edge_iff.2 ⟨k, e, he, rfl, rfl⟩)
  · exact hlinked.isTransient_iff_acyclic hc
  · rw [hlinked.isTerminal_iff_closed]
    refine forall₂_congr fun v _ => forall_congr' fun w => ?_
    exact not_imp_not.symm

/-- Two loops, two nodes that lead to each other and a node that leads to the others;
    the node in the middle is gone with its edge. -/
def loopsAndPair : Graph String :=
  ofChanges { carrier := .nodes }
    [.addNode {}, .addNode {}, .addNode {}, .addNode {}, .addNode {}, .addNode {},
      .addEdge 0 0 {} "-" {}, .addEdge 0 1 {} "-" {}, .addEdge 0 2 {} "-" {},
      .addEdge 1 1 {} "-" {}, .addEdge 2 3 {} "-" {}, .addEdge 2 2 {} "-" {},
      .addEdge 3 2 {} "-" {}, .addEdge 3 4 {} "-" {}, .addEdge 5 0 {} "-" {}, .removeNode 4]

/-- Its components are `{1}`, `{2, 3}`, `{0}` and `{5}`; only the last is transient. -/
theorem components_decompose_loopsAndPair :
    loopsAndPair.Reached ∧ loopsAndPair.components.map (·.toList) = [[1], [2, 3], [0], [5]]
      ∧ loopsAndPair.components.map loopsAndPair.isTransient = [false, false, false, true]
      ∧ loopsAndPair.components.map loopsAndPair.isTerminal = [true, true, false, false]
      ∧ loopsAndPair.Decomposition loopsAndPair.components := by
  have hreached : loopsAndPair.Reached := reached_ofChanges _ _
  exact ⟨hreached, by decide +kernel, by decide +kernel, by decide +kernel,
    components_decompose hreached⟩

end Graph
end LinearTime
