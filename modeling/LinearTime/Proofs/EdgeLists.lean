/-
  LinearTime.Proofs.EdgeLists — the edge lists of a graph that changes.

  A graph develops by changes: nodes and edges are added and removed, attributes
  are updated, everything is cleared, with whatever indices.  A change that asks
  for something missing has no effect and says so.

  Whatever the changes, the edges that leave a node form one doubly linked list:

      node ─→ i₀ ⇄ i₁ ⇄ … ⇄ iₖ        i₀ < i₁ < … < iₖ

  Walking along it without any bound ends behind `iₖ`, and the bound that
  `edgesFrom` puts on its walk cuts nothing off (`Chain`).

  Main results:
    * `Linked.chain`, `Linked.indices_edgesFrom` — what the list of a node looks
      like, and which edges are on it.
    * `removeNode?_counts` — removing a node counts every edge once.
    * `edge_lists_of_changes` — the lists after any sequence of changes.
-/

import LinearTime.Proofs.GraphOperations

namespace LinearTime
namespace Graph

variable {α : Type} {g : Graph α} {i j v : Nat} {e f : Edge α}

/-! ## §1. Changes -/

/-- A change of a graph. -/
inductive Change (α : Type) where
  | addNode (attributes : Attributes)
  | addEdge (source target : Nat) (guard : Guard α) (action : String) (attributes : Attributes)
  | removeEdge (index : Nat)
  | removeNode (index : Nat)
  | clear
  | nodeAttributes (index : Nat) (update : Attributes → Attributes)
  | edgeAttributes (index : Nat) (update : Attributes → Attributes)

/-- What a change gives back: the index of what was added, the edge that was
    removed, or how many edges went with a node. -/
inductive Answer (α : Type) where
  | added (index : Option Nat)
  | removed (edge : Option (Edge α))
  | edgesRemoved (count : Option Nat)
  | done

/-- Makes a change. -/
def Change.run (g : Graph α) : Change α → Answer α × Graph α
  | .addNode a => (.added (some g.nodes.size), g.addNode a)
  | .addEdge source target guard action a =>
    match g.addEdge? source target guard action a with
    | some g' => (.added (some g.edges.size), g')
    | none => (.added none, g)
  | .removeEdge i => (.removed (g.edge? i), g.removeEdge i)
  | .removeNode v =>
    match g.removeNode? v with
    | some (n, g') => (.edgesRemoved (some n), g')
    | none => (.edgesRemoved none, g)
  | .clear => (.done, g.clear)
  | .nodeAttributes v update => (.done, g.modifyNodeAttributes v update)
  | .edgeAttributes i update => (.done, g.modifyEdgeAttributes i update)

/-- The graph after some changes, one after the other, from one without nodes. -/
def ofChanges (acceptance : Acceptance) (changes : List (Change α)) : Graph α :=
  changes.foldl (fun g c => (c.run g).2) { acceptance }

/-- A change leads from a reached graph to a reached graph. -/
theorem Reached.run (h : g.Reached) (c : Change α) : (c.run g).2.Reached := by
  cases c with
  | addNode a => exact .addNode h a
  | addEdge source target guard action a =>
    simp only [Change.run]
    split
    next g' hg' => exact .addEdge h hg'
    next => exact h
  | removeEdge i => exact .removeEdge h i
  | removeNode v =>
    simp only [Change.run]
    split
    next n g' hg' => exact .removeNode h hg'
    next => exact h
  | clear => exact .clear h
  | nodeAttributes v update => exact .nodeAttributes h v update
  | edgeAttributes i update => exact .edgeAttributes h i update

/-- Whatever is changed in whatever order, the graph is reached. -/
theorem reached_ofChanges (acceptance : Acceptance) (changes : List (Change α)) :
    (ofChanges acceptance changes).Reached := by
  have hrun (g : Graph α) (h : g.Reached) :
      (changes.foldl (fun g c => (c.run g).2) g).Reached := by
    induction changes generalizing g with
    | nil => exact h
    | cons c changes ih => exact ih _ (h.run c)
  exact hrun _ (.start acceptance)

/-! ## §2. Walking along a list -/

/-- Walking along the links from `first` passes the listed edges and ends there;
    each of them links back to the one before it, the first one to `before`. -/
inductive Chain (g : Graph α) : (before first : Option Nat) → List (Nat × Edge α) → Prop
  | stop {before : Option Nat} : Chain g before none []
  | pass {before : Option Nat} {i : Nat} {e : Edge α} {rest : List (Nat × Edge α)}
    (he : g.edge? i = some e) (hprev : e.prev = before) (hrest : Chain g (some i) e.next rest) :
    Chain g before (some i) ((i, e) :: rest)

/-- The walk from the least edge that is not below `low`, where `before` is the
    greatest one below it. -/
theorem Linked.chain_follow (h : g.Linked) {steps low : Nat} {before o : Option Nat}
    (ho : Least (fun j => g.Leaves v j ∧ low ≤ j) o)
    (hbefore : Greatest (fun j => g.Leaves v j ∧ j < low) before)
    (hsteps : g.edges.size ≤ low + steps) : g.Chain before o (g.follow steps o) := by
  induction steps generalizing low before o with
  | zero =>
    cases o with
    | none => exact .stop
    | some k =>
      -- there are no edges from `low` on
      obtain ⟨⟨⟨f, hf, -⟩, hlow⟩, -⟩ := ho
      have := edge?_lt hf
      omega
  | succ steps ih =>
    cases o with
    | none => exact .stop
    | some k =>
      obtain ⟨⟨⟨f, hf, hfv⟩, hlow⟩, hleast⟩ := ho
      have hprev : f.prev = before := by
        refine (h.prev k f hf).unique (hbefore.congr fun j => ?_)
        rw [hfv]
        refine and_congr_right fun hj => ⟨fun hjk => ?_, fun hjl => by omega⟩
        by_contra hge
        have := hleast j ⟨hj, by omega⟩
        omega
      have hnext : Least (fun j => g.Leaves v j ∧ k + 1 ≤ j) f.next := by
        refine (h.next k f hf).congr fun j => ?_
        rw [hfv]
        exact Iff.rfl
      have hlast : Greatest (fun j => g.Leaves v j ∧ j < k + 1) (some k) :=
        ⟨⟨⟨f, hf, hfv⟩, by omega⟩, fun j hj => by omega⟩
      unfold follow
      simp only [hf]
      exact .pass hf hprev (ih hnext hlast (by omega))

/-- The edges that leave a node are chained. -/
theorem Linked.chain (h : g.Linked) {n : Node} (hn : g.node? v = some n) :
    g.Chain none n.first (g.edgesFrom v) := by
  have hfirst : Least (fun j => g.Leaves v j ∧ 0 ≤ j) n.first :=
    (h.first v n hn).congr fun j => and_iff_left (Nat.zero_le j)
  have hbefore : Greatest (fun j => g.Leaves v j ∧ j < 0) none := fun j hj => by omega
  unfold edgesFrom
  rw [hn]
  exact h.chain_follow hfirst hbefore (by omega)

/-- Whether the edge is there and leaves `v`. -/
def leaves (g : Graph α) (v i : Nat) : Bool := (g.edge? i).any (·.source == v)

/-- An edge leaves a node just when the node is its source. -/
theorem leaves_iff : g.leaves v i = true ↔ ∃ e, g.edge? i = some e ∧ e.source = v := by
  unfold leaves
  rw [Option.any_eq_true]
  simp only [beq_iff_eq]

theorem edgeIndices_sorted (g : Graph α) : g.edgeIndices.Pairwise (· < ·) :=
  List.pairwise_lt_range.filter _

/-- On the list of a node are the edges that leave it, in ascending order. -/
theorem Linked.indices_edgesFrom (h : g.Linked) (v : Nat) :
    (g.edgesFrom v).map (·.1) = g.edgeIndices.filter (g.leaves v) := by
  have hsorted : ((g.edgesFrom v).map (·.1)).Pairwise (· < ·) :=
    List.pairwise_map.2 (h.edgesFrom_sorted v)
  refine hsorted.eq_of_mem_iff ((edgeIndices_sorted g).filter _) fun i => ?_
  rw [List.mem_map, List.mem_filter, mem_edgeIndices, leaves_iff]
  constructor
  · rintro ⟨⟨j, e⟩, hmem, rfl⟩
    obtain ⟨he, hv⟩ := h.mem_edgesFrom.1 hmem
    exact ⟨⟨e, he⟩, e, he, hv⟩
  · rintro ⟨-, e, he, hv⟩
    exact ⟨(i, e), h.mem_edgesFrom.2 ⟨he, hv⟩, rfl⟩

/-! ## §3. Counting what goes with a node -/

/-- An edge is there with its links or without them. -/
theorem isSome_bareEdge? (g : Graph α) (i : Nat) :
    (g.bareEdge? i).isSome = (g.edge? i).isSome := by
  unfold bareEdge?
  rw [Option.isSome_map]

theorem nodeIndices_sorted (g : Graph α) : g.nodeIndices.Pairwise (· < ·) :=
  List.pairwise_lt_range.filter _

theorem nodeIndices_nodup (g : Graph α) : g.nodeIndices.Nodup :=
  (nodeIndices_sorted g).imp Nat.ne_of_lt

/-- Graphs with the same nodes list them in the same order. -/
theorem nodeIndices_congr {g' : Graph α} (h : ∀ v, g'.hasNode v = g.hasNode v) :
    g'.nodeIndices = g.nodeIndices := by
  refine (nodeIndices_sorted g').eq_of_mem_iff (nodeIndices_sorted g) fun v => ?_
  rw [mem_nodeIndices, mem_nodeIndices, h]

/-- Graphs with the same edges list them in the same order. -/
theorem edgeIndices_congr {g' : Graph α}
    (h : ∀ i, (g'.bareEdge? i).isSome = (g.bareEdge? i).isSome) :
    g'.edgeIndices = g.edgeIndices := by
  refine (edgeIndices_sorted g').eq_of_mem_iff (edgeIndices_sorted g) fun i => ?_
  rw [mem_edgeIndices, mem_edgeIndices, ← Option.isSome_iff_exists, ← Option.isSome_iff_exists,
    ← isSome_bareEdge?, ← isSome_bareEdge?, h]

/-- The edges that go with a node are those that leave or enter it, and each of
    them is counted once, also if it does both. -/
theorem removeNode?_counts {n : Nat} {g' : Graph α} (hg' : g.removeNode? v = some (n, g')) :
    g'.edgeCount + n = g.edgeCount
      ∧ ∀ i, (∃ e', g'.edge? i = some e')
          ↔ ∃ e, g.edge? i = some e ∧ e.source ≠ v ∧ e.target ≠ v := by
  obtain ⟨-, hn, hedge, -⟩ := removeNode?_eq_some hg'
  have hmem (i : Nat) : i ∈ g.incident v ↔
      i ∈ g.edgeIndices ∧ (g.edge? i).any (fun e => e.source == v || e.target == v) = true :=
    List.mem_filter
  -- the edges that stay are those that are not counted
  have hstays (i : Nat) : (∃ e', g'.edge? i = some e') ↔ i ∈ g.edgeIndices ∧ i ∉ g.incident v := by
    rw [← Option.isSome_iff_exists, ← isSome_bareEdge?, hedge, mem_edgeIndices,
      ← Option.isSome_iff_exists, ← isSome_bareEdge?]
    split
    next hi => simp [hi]
    next hi => simp [hi]
  have hindices : g'.edgeIndices = g.edgeIndices.filter fun i =>
      !(g.edge? i).any fun e => e.source == v || e.target == v := by
    refine (edgeIndices_sorted g').eq_of_mem_iff ((edgeIndices_sorted g).filter _) fun i => ?_
    rw [mem_edgeIndices, hstays, hmem, List.mem_filter]
    refine and_congr_right fun hi => ?_
    simp [hi]
  constructor
  · unfold edgeCount
    rw [hn, hindices, incident, Nat.add_comm]
    exact (List.length_eq_length_filter_add _).symm
  · intro i
    rw [hstays, hmem, mem_edgeIndices]
    cases g.edge? i with
    | none => simp
    | some e => simp

/-! ## §4. After any changes -/

/-- After any sequence of changes, with whatever indices: edges have their end
    points; the list of a node is chained both ways, ends, and has the edges that
    leave the node in ascending order; next and previous edges belong together.
    An edge without an end point is not added, and what is missing is not removed:
    such a change gives nothing back and leaves the graph as it is.  Removing a
    node gives back how many edges there are less, and these are the ones that
    left or entered it. -/
theorem edge_lists_of_changes (acceptance : Acceptance) (changes : List (Change α)) :
    let g := ofChanges acceptance changes
    (∀ i e, g.edge? i = some e → g.hasNode e.source = true ∧ g.hasNode e.target = true)
      ∧ (∀ v n, g.node? v = some n → g.Chain none n.first (g.edgesFrom v)
          ∧ (g.edgesFrom v).map (·.1) = g.edgeIndices.filter (g.leaves v))
      ∧ (∀ i j e f, g.edge? i = some e → g.edge? j = some f →
          (e.next = some j ↔ f.prev = some i))
      ∧ (∀ source target guard action a, g.hasNode source = false ∨ g.hasNode target = false →
          (Change.addEdge source target guard action a).run g = (.added none, g))
      ∧ (∀ i, g.edge? i = none → (Change.removeEdge i).run g = (.removed none, g))
      ∧ (∀ v, g.hasNode v = false → (Change.removeNode v).run g = (.edgesRemoved none, g))
      ∧ ∀ v, g.hasNode v = true → ∃ n g',
          (Change.removeNode v).run g = (.edgesRemoved (some n), g')
            ∧ g'.edgeCount + n = g.edgeCount
            ∧ ∀ i, (∃ e', g'.edge? i = some e')
                ↔ ∃ e, g.edge? i = some e ∧ e.source ≠ v ∧ e.target ≠ v := by
  intro g
  -- All parts hold of any graph whose lists are linked.
  have h : g.Linked := (reached_ofChanges acceptance changes).linked
  refine ⟨?_, ?_, ?_, ?_, ?_, ?_, ?_⟩
  · intro i e he
    exact ⟨h.source i e he, h.target i e he⟩
  · intro v n hn
    exact ⟨h.chain hn, h.indices_edgesFrom v⟩
  · intro i j e f he hf
    exact h.next_iff_prev he hf
  · intro source target guard action a hmissing
    have hnone : g.addEdge? source target guard action a = none := by
      unfold addEdge?
      rcases hmissing with hs | ht
      · simp [hs]
      · simp [ht]
    simp only [Change.run, hnone]
  · intro i hi
    simp only [Change.run, hi, removeEdge_none hi]
  · intro v hv
    have hnone : g.removeNode? v = none := by simp [removeNode?, hv]
    simp only [Change.run, hnone]
  · intro v hv
    obtain ⟨⟨n, g'⟩, hg'⟩ : ∃ p, g.removeNode? v = some p := by simp [removeNode?, hv]
    refine ⟨n, g', ?_, removeNode?_counts hg'⟩
    simp only [Change.run, hg']

/-- A node with an edge to itself, and one edge more. -/
example : (ofChanges (α := String) {} [.addNode {}, .addNode {}, .addEdge 1 1 {} "-" {},
    .addEdge 0 7 {} "-" {}, .addEdge 0 1 {} "-" {}]).incident 1 = [0, 1] := by decide

end Graph
end LinearTime
