/-
  LinearTime.Proofs.GraphRuns — infinite runs of a graph and its components.

  A run of a graph is an infinite sequence of edge indices, each edge starting
  where the one before ends.  It is accepting if it passes marks of every
  acceptance set again and again: on the nodes that its edges start at, or on
  the edges themselves, as the acceptance condition says.

  The components of a graph are the classes of nodes that can be reached from
  each other by edges.  A run stays in one of them in the end, which then is
  accepting and not transient.

  Main results:
    * `AcceptingFrom` — accepting runs from a node.
    * `components_class`, `components_cover` — the components.
    * `isAccepting_iff`, `isTransient_iff`, `isTerminal_iff` — what is asked about
      a component, in terms of the edges.
    * `AcceptingFrom.exists_component` — where an accepting run stays.
-/

import LinearTime.Proofs.GraphOperations
import LinearTime.Proofs.Walks
import LinearTime.Reduction

namespace LinearTime
namespace Graph

variable {α : Type} {g : Graph α} {i v w k : Nat} {c d : Component}

/-! ## §1. Runs -/

/-- The edges of a graph as moves between its nodes. -/
def moves (g : Graph α) : Moves Nat where
  allowed i := ∃ e, g.edge? i = some e
  source i := ((g.edge? i).map (·.source)).getD 0
  target i := ((g.edge? i).map (·.target)).getD 0

/-- Taking the edge passes the mark `k`: on the node that it starts at, or on
    the edge itself. -/
def Carries (g : Graph α) (k i : Nat) : Prop :=
  match g.acceptance.carrier with
  | .nodes => ∃ e n, g.edge? i = some e ∧ g.node? e.source = some n ∧ k ∈ n.attributes.marks
  | .edges => ∃ e, g.edge? i = some e ∧ k ∈ e.attributes.marks

/-- An infinite chain of edges from `v` that passes marks of every acceptance set
    again and again. -/
structure AcceptingFrom (g : Graph α) (v : Nat) (ρ : Nat → Nat) : Prop where
  run : g.moves.Run v ρ
  again : ∀ k < g.acceptance.sets, Moves.Often ρ (g.Carries k)

theorem moves_source {e : Edge α} (he : g.edge? i = some e) : g.moves.source i = e.source := by
  simp [moves, he]

theorem moves_target {e : Edge α} (he : g.edge? i = some e) : g.moves.target i = e.target := by
  simp [moves, he]

/-- One move leads from a node to another just when an edge of the graph does. -/
theorem moves_edge_iff :
    g.moves.Edge v w ↔ ∃ i e, g.edge? i = some e ∧ e.source = v ∧ e.target = w := by
  constructor
  · rintro ⟨i, ⟨e, he⟩, rfl, rfl⟩
    exact ⟨i, e, he, (moves_source he).symm, (moves_target he).symm⟩
  · rintro ⟨i, e, he, rfl, rfl⟩
    exact ⟨i, ⟨e, he⟩, moves_source he, moves_target he⟩

/-- An edge leaves one of the node slots. -/
theorem Linked.source_lt (h : g.Linked) (hi : g.moves.allowed i) :
    g.moves.source i < g.nodes.size := by
  obtain ⟨e, he⟩ := hi
  obtain ⟨n, hn⟩ := hasNode_iff.1 (h.source i e he)
  rw [moves_source he]
  exact node?_lt hn

/-- Edges join nodes of the graph. -/
theorem Linked.hasNode_of_edge (h : g.Linked) (hvw : g.moves.Edge v w) :
    g.hasNode v = true ∧ g.hasNode w = true := by
  obtain ⟨i, e, he, rfl, rfl⟩ := moves_edge_iff.1 hvw
  exact ⟨h.source i e he, h.target i e he⟩

/-- Moves never leave the nodes of the graph. -/
theorem Linked.hasNode_of_reaches (h : g.Linked) (hv : g.hasNode v = true)
    (hvw : g.moves.Reaches v w) : g.hasNode w = true := by
  induction hvw with
  | refl => exact hv
  | tail _ hedge _ => exact (h.hasNode_of_edge hedge).2

/-! ## §2. Components -/

/-- The component search sees the edges of the graph. -/
theorem Linked.toDigraph_edge (h : g.Linked) : g.toDigraph.Edge = g.moves.Edge := by
  funext v w
  refine propext ?_
  rw [moves_edge_iff]
  show w ∈ (g.edgesFrom v).map (·.2.target) ↔ _
  rw [List.mem_map]
  constructor
  · rintro ⟨⟨i, e⟩, hmem, rfl⟩
    obtain ⟨he, hv⟩ := h.mem_edgesFrom.1 hmem
    exact ⟨i, e, he, hv, rfl⟩
  · rintro ⟨i, e, he, hv, rfl⟩
    exact ⟨(i, e), h.mem_edgesFrom.2 ⟨he, hv⟩, rfl⟩

/-- The component search sees which nodes reach each other. -/
theorem Linked.toDigraph_mutual (h : g.Linked) : g.toDigraph.Mutual = g.moves.Mutual := by
  unfold Digraph.Mutual Moves.Mutual Digraph.Reaches Moves.Reaches
  rw [h.toDigraph_edge]

/-- The component search runs on a well-formed digraph. -/
theorem Linked.toDigraph_wellFormed (h : g.Linked) : g.toDigraph.WellFormed where
  node_lt v hv := by
    obtain ⟨n, hn⟩ := hasNode_iff.1 (mem_nodeIndices.1 hv)
    exact node?_lt hn
  source_mem v w hvw := by
    rw [h.toDigraph_edge] at hvw
    exact mem_nodeIndices.2 (h.hasNode_of_edge hvw).1
  target_mem v w hvw := by
    rw [h.toDigraph_edge] at hvw
    exact mem_nodeIndices.2 (h.hasNode_of_edge hvw).2

/-- A component is a class of nodes. -/
theorem Linked.components_class (h : g.Linked) (hc : c ∈ g.components) :
    ∃ r, g.hasNode r = true ∧ ∀ x, x ∈ c ↔ g.moves.Mutual r x := by
  obtain ⟨l, hl, rfl⟩ := List.mem_map.1 hc
  obtain ⟨r, hr, hclass⟩ :=
    (Digraph.components_classified h.toDigraph_wellFormed).class_of l hl
  rw [h.toDigraph_mutual] at hclass
  refine ⟨r, mem_nodeIndices.1 hr, fun x => ?_⟩
  rw [IndexSet.mem_ofList]
  exact hclass x

/-- Every node is in a component. -/
theorem Linked.components_cover (h : g.Linked) (hv : g.hasNode v = true) :
    ∃ c ∈ g.components, v ∈ c := by
  obtain ⟨l, hl, hvl⟩ := (Digraph.components_classified h.toDigraph_wellFormed).covers v
    (mem_nodeIndices.2 hv)
  exact ⟨_, List.mem_map_of_mem hl, IndexSet.mem_ofList.2 hvl⟩

/-- Nodes of one component reach each other. -/
theorem Linked.mutual_of_mem (h : g.Linked) (hc : c ∈ g.components) (hv : v ∈ c) (hw : w ∈ c) :
    g.moves.Mutual v w := by
  obtain ⟨r, -, hclass⟩ := h.components_class hc
  exact ((hclass v).1 hv).symm.trans ((hclass w).1 hw)

/-- A component holds every node that reaches and is reached from one of its nodes. -/
theorem Linked.mem_of_mutual (h : g.Linked) (hc : c ∈ g.components) (hv : v ∈ c)
    (hvw : g.moves.Mutual v w) : w ∈ c := by
  obtain ⟨r, -, hclass⟩ := h.components_class hc
  exact (hclass w).2 (((hclass v).1 hv).trans hvw)

/-- Components hold nodes of the graph. -/
theorem Linked.hasNode_of_mem (h : g.Linked) (hc : c ∈ g.components) (hv : v ∈ c) :
    g.hasNode v = true := by
  obtain ⟨r, hr, hclass⟩ := h.components_class hc
  exact h.hasNode_of_reaches hr ((hclass v).1 hv).1

/-- A component has a node. -/
theorem Linked.exists_mem (h : g.Linked) (hc : c ∈ g.components) : ∃ v, v ∈ c := by
  obtain ⟨r, -, hclass⟩ := h.components_class hc
  exact ⟨r, (hclass r).2 ⟨.refl, .refl⟩⟩

/-- Two components that share a node have the same nodes. -/
theorem Linked.mem_iff_of_mem (h : g.Linked) (hc : c ∈ g.components) (hd : d ∈ g.components)
    (hvc : v ∈ c) (hvd : v ∈ d) : w ∈ c ↔ w ∈ d :=
  ⟨fun hw => h.mem_of_mutual hd hvd (h.mutual_of_mem hc hvc hw),
    fun hw => h.mem_of_mutual hc hvc (h.mutual_of_mem hd hvd hw)⟩

/-- Sets with the same members are equal. -/
theorem component_ext (h : ∀ x, x ∈ c ↔ x ∈ d) : c = d := by
  have hlist : c.toList = d.toList := by
    have hperm : c.toList.Perm d.toList := by
      exact (List.perm_ext_iff_of_nodup (c.ascending.imp fun hlt heq => by omega)
        (d.ascending.imp fun hlt heq => by omega)).2 h
    refine hperm.eq_of_pairwise ?_ c.ascending d.ascending
    intro a b _ _ hab hba
    omega
  obtain ⟨l, hl⟩ := c
  obtain ⟨l', hl'⟩ := d
  subst hlist
  rfl

/-- No node lies in two components. -/
theorem Linked.component_eq (h : g.Linked) (hc : c ∈ g.components) (hd : d ∈ g.components)
    (hvc : v ∈ c) (hvd : v ∈ d) : c = d :=
  component_ext fun _ => h.mem_iff_of_mem hc hd hvc hvd

/-! ## §3. What is asked about a component -/

/-- The edges of a component are those that leave its nodes. -/
theorem Linked.mem_edgesOf (h : g.Linked) {e : Edge α} :
    (i, e) ∈ g.edgesOf c ↔ g.edge? i = some e ∧ e.source ∈ c := by
  unfold edgesOf
  rw [List.mem_flatMap]
  constructor
  · rintro ⟨v, hv, hmem⟩
    obtain ⟨he, rfl⟩ := h.mem_edgesFrom.1 hmem
    exact ⟨he, hv⟩
  · rintro ⟨he, hv⟩
    exact ⟨e.source, hv, h.mem_edgesFrom.2 ⟨he, rfl⟩⟩

/-- The interior edges of a component join nodes of it. -/
theorem Linked.mem_interiorEdges (h : g.Linked) {e : Edge α} :
    (i, e) ∈ g.interiorEdges c ↔ g.edge? i = some e ∧ e.source ∈ c ∧ e.target ∈ c := by
  unfold interiorEdges
  rw [List.mem_filter, h.mem_edgesOf, IndexSet.contains_iff]
  exact and_assoc

/-- The exits of a component leave it. -/
theorem Linked.mem_exitEdges (h : g.Linked) {e : Edge α} :
    (i, e) ∈ g.exitEdges c ↔ g.edge? i = some e ∧ e.source ∈ c ∧ e.target ∉ c := by
  unfold exitEdges
  rw [List.mem_filter, h.mem_edgesOf, ← IndexSet.contains_iff (s := c) (x := e.target),
    Bool.not_eq_true, Bool.not_eq_true']
  exact and_assoc

/-- A move inside a class is an interior edge of the component. -/
theorem Linked.inside_iff (h : g.Linked) (hc : c ∈ g.components) (hv : v ∈ c) :
    g.moves.Inside v i ↔ ∃ e, (i, e) ∈ g.interiorEdges c := by
  constructor
  · rintro ⟨⟨e, he⟩, hsource, htarget⟩
    rw [moves_source he] at hsource
    rw [moves_target he] at htarget
    exact ⟨e, h.mem_interiorEdges.2
      ⟨he, h.mem_of_mutual hc hv hsource, h.mem_of_mutual hc hv htarget⟩⟩
  · rintro ⟨e, hmem⟩
    obtain ⟨he, hsource, htarget⟩ := h.mem_interiorEdges.1 hmem
    refine ⟨⟨e, he⟩, ?_, ?_⟩
    · rw [moves_source he]
      exact h.mutual_of_mem hc hv hsource
    · rw [moves_target he]
      exact h.mutual_of_mem hc hv htarget

/-- No edge leads out of a terminal component. -/
theorem Linked.isTerminal_iff (h : g.Linked) :
    g.isTerminal c = true ↔ ∀ i e, g.edge? i = some e → e.source ∈ c → e.target ∈ c := by
  unfold isTerminal
  rw [List.isEmpty_iff, List.eq_nil_iff_forall_not_mem]
  constructor
  · intro hnone i e he hsource
    by_contra htarget
    exact hnone (i, e) (h.mem_exitEdges.2 ⟨he, hsource, htarget⟩)
  · rintro hstays ⟨i, e⟩ hmem
    obtain ⟨he, hsource, htarget⟩ := h.mem_exitEdges.1 hmem
    exact htarget (hstays i e he hsource)

/-- Nothing outside a terminal component is reached from it. -/
theorem Linked.mem_of_terminal (h : g.Linked) (hterminal : g.isTerminal c = true) (hv : v ∈ c)
    (hvw : g.moves.Reaches v w) : w ∈ c := by
  induction hvw with
  | refl => exact hv
  | tail _ hedge ih =>
    obtain ⟨i, e, he, rfl, rfl⟩ := moves_edge_iff.1 hedge
    exact h.isTerminal_iff.1 hterminal i e he ih

/-- A component is transient if no move stays inside. -/
theorem Linked.isTransient_iff (h : g.Linked) (hc : c ∈ g.components) (hv : v ∈ c) :
    g.isTransient c = true ↔ ∀ i, ¬ g.moves.Inside v i := by
  have hinterior : (g.interiorEdges c).isEmpty = true ↔ ∀ i, ¬ g.moves.Inside v i := by
    rw [List.isEmpty_iff, List.eq_nil_iff_forall_not_mem]
    constructor
    · intro hnone i hi
      obtain ⟨e, hmem⟩ := (h.inside_iff hc hv).1 hi
      exact hnone _ hmem
    · rintro hnone ⟨i, e⟩ hmem
      exact hnone i ((h.inside_iff hc hv).2 ⟨e, hmem⟩)
  unfold isTransient
  rw [Bool.and_eq_true, hinterior]
  refine and_iff_right_of_imp fun hnone => ?_
  -- from one node to another one of the same class leads a move inside
  have hsingle (w : Nat) (hw : w ∈ c) : w = v := by
    have hvw := h.mutual_of_mem hc hv hw
    rcases Relation.ReflTransGen.cases_head hvw.1 with rfl | ⟨x, hvx, hxw⟩
    · rfl
    · obtain ⟨i, hi, rfl, rfl⟩ := hvx
      exact absurd ⟨hi, ⟨.refl, .refl⟩,
        ⟨.single ⟨i, hi, rfl, rfl⟩, Relation.ReflTransGen.trans hxw hvw.2⟩⟩ (hnone i)
  have hlist : c.toList = [v] := by
    refine List.perm_singleton.1 ?_
    refine (List.perm_ext_iff_of_nodup (c.ascending.imp fun hlt heq => by omega)
      (List.nodup_singleton v)).2 fun x => ?_
    rw [List.mem_singleton]
    exact ⟨hsingle x, fun hx => hx ▸ hv⟩
  unfold OrderedSet.size
  rw [hlist]
  rfl

/-- The marks that can be passed while staying in a component. -/
theorem Linked.mem_witnessed (h : g.Linked) (hc : c ∈ g.components) (hv : v ∈ c)
    (hstays : g.isTransient c = false) :
    k ∈ g.witnessed c ↔ ∃ i, g.moves.Inside v i ∧ g.Carries k i := by
  unfold witnessed Carries
  cases g.acceptance.carrier with
  | nodes =>
    simp only [MarkSet.mem_unionAll, List.mem_filterMap, Option.map_eq_some_iff]
    constructor
    · rintro ⟨m, ⟨w, hw, n, hn, rfl⟩, hk⟩
      -- some move inside starts at every node of the class
      obtain ⟨j, hj⟩ : ∃ j, g.moves.Inside v j := by
        by_contra hnone
        push Not at hnone
        rw [(h.isTransient_iff hc hv).2 hnone] at hstays
        cases hstays
      have hvw := h.mutual_of_mem hc hv hw
      obtain ⟨i, hi, hsource⟩ := hj.exists_from hvw
      obtain ⟨e, he⟩ := hi.allowed
      rw [moves_source he] at hsource
      exact ⟨i, hi, e, n, he, hsource ▸ hn, hk⟩
    · rintro ⟨i, hi, e, n, he, hn, hk⟩
      have hsource := hi.source
      rw [moves_source he] at hsource
      exact ⟨_, ⟨e.source, h.mem_of_mutual hc hv hsource, n, hn, rfl⟩, hk⟩
  | edges =>
    simp only [MarkSet.mem_unionAll, List.mem_map]
    constructor
    · rintro ⟨m, ⟨⟨i, e⟩, hmem, rfl⟩, hk⟩
      exact ⟨i, (h.inside_iff hc hv).2 ⟨e, hmem⟩, e, (h.mem_interiorEdges.1 hmem).1, hk⟩
    · rintro ⟨i, hi, e, he, hk⟩
      obtain ⟨e', hmem⟩ := (h.inside_iff hc hv).1 hi
      obtain rfl : e' = e := Option.some.inj ((h.mem_interiorEdges.1 hmem).1.symm.trans he)
      exact ⟨_, ⟨(i, e'), hmem, rfl⟩, hk⟩

/-- A component that can be stayed in is accepting if it is a core of the moves. -/
theorem Linked.core_iff (h : g.Linked) (hc : c ∈ g.components) (hv : v ∈ c) :
    g.moves.Core v g.acceptance.sets g.Carries
      ↔ g.isAccepting c = true ∧ g.isTransient c = false := by
  have htransient : g.isTransient c = false ↔ ∃ i, g.moves.Inside v i := by
    rw [← Bool.not_eq_true, h.isTransient_iff hc hv]
    push Not
    rfl
  unfold isAccepting
  rw [MarkSet.covers_iff]
  constructor
  · intro hcore
    have hstays := htransient.2 hcore.stays
    exact ⟨fun k hk => (h.mem_witnessed hc hv hstays).2 (hcore.all k hk), hstays⟩
  · rintro ⟨hcovers, hstays⟩
    exact ⟨htransient.1 hstays, fun k hk => (h.mem_witnessed hc hv hstays).1 (hcovers k hk)⟩

/-- An accepting run stays in an accepting component that is not transient. -/
theorem AcceptingFrom.exists_component (h : g.Linked) {ρ : Nat → Nat}
    (hρ : g.AcceptingFrom v ρ) :
    ∃ c ∈ g.components, g.isAccepting c = true ∧ g.isTransient c = false
      ∧ ∃ N, ∀ n, N ≤ n → g.moves.source (ρ n) ∈ c ∧ g.moves.target (ρ n) ∈ c := by
  obtain ⟨N, u, hvu, hinside⟩ := hρ.run.settles fun n => h.source_lt (hρ.run.allowed n)
  have hu : g.hasNode u = true := by
    obtain ⟨e, he⟩ := hρ.run.allowed N
    have hsource := (hinside N (le_refl N)).source.2
    rw [moves_source he] at hsource
    exact h.hasNode_of_reaches (h.source _ e he) hsource
  obtain ⟨c, hc, huc⟩ := h.components_cover hu
  have hcore : g.moves.Core u g.acceptance.sets g.Carries := by
    refine ⟨⟨ρ N, hinside N (le_refl N)⟩, fun k hk => ?_⟩
    obtain ⟨m, hm, hcarries⟩ := hρ.again k hk N
    exact ⟨ρ m, hinside m hm, hcarries⟩
  obtain ⟨haccepting, hstays⟩ := (h.core_iff hc huc).1 hcore
  exact ⟨c, hc, haccepting, hstays, N, fun n hn =>
    ⟨h.mem_of_mutual hc huc (hinside n hn).source, h.mem_of_mutual hc huc (hinside n hn).target⟩⟩

end Graph
end LinearTime
