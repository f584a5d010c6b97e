/-
  LinearTime.Proofs.ReducedGraph — what is left of a graph after reduction.

  Passes are repeated until one changes nothing.  What they arrive at can be
  told from the accepting runs of the graph that is reduced, for these are the
  same before and after every pass.  Two properties are about accepting runs
  alone:

      Recurs v   — some accepting run passes the node `v` again and again
                   ⟺ the component of `v` is accepting and not transient
      Retaken i  — some accepting run takes the edge `i` again and again
                   ⟺ moreover the edge stays in that component

  So they hold in all graphs between two passes if they hold in one of them.  No
  pass clears the marks of such a node or edge, and the last pass would clear
  the marks of any other, if there were some left.

  Main results:
    * `Linked.recurs_iff`, `Linked.retaken_iff` — the equivalences above.
    * `pass_trims`, `iterate_pass_trims` — what passes keep.
    * `Settled.node_marks`, `Settled.edge_marks` — what has no marks in the end.
    * `reduce_exact` — the result of a reduction.
-/

import LinearTime.Proofs.ReducedRuns

namespace LinearTime

namespace Graph

variable {α : Type} {g g' g'' : Graph α} {i v : Nat} {ρ : Nat → Nat} {c : Component}

/-! ## §1. What accepting runs pass again and again -/

/-- Some accepting run passes the node again and again: what is left of it there
    is an accepting run from the node. -/
def Recurs (g : Graph α) (v : Nat) : Prop :=
  ∃ ρ : Nat → Nat, ∀ n, ∃ m, n ≤ m ∧ g.AcceptingFrom v fun k => ρ (m + k)

/-- Some accepting run takes the edge again and again. -/
def Retaken (g : Graph α) (i : Nat) : Prop :=
  ∃ v ρ, g.AcceptingFrom v ρ ∧ Moves.Often ρ (· = i)

/-- What is left of an accepting run after some edges is one. -/
theorem AcceptingFrom.suffix (hρ : g.AcceptingFrom v ρ) (m : Nat) :
    g.AcceptingFrom (g.moves.source (ρ m)) fun k => ρ (m + k) := by
  refine ⟨⟨rfl, fun n => hρ.run.allowed _, fun n => hρ.run.next _⟩, fun k hk n => ?_⟩
  obtain ⟨l, hl, hcarries⟩ := hρ.again k hk (m + n)
  refine ⟨l - m, by omega, ?_⟩
  rwa [Nat.add_sub_cancel' (by omega : m ≤ l)]

/-- A component is accepting and not transient if an accepting run passes one of
    its nodes again and again. -/
theorem Linked.recurs_iff (h : g.Linked) (hc : c ∈ g.components) (hv : v ∈ c) :
    g.Recurs v ↔ g.isAccepting c = true ∧ g.isTransient c = false := by
  constructor
  · rintro ⟨ρ, hagain⟩
    obtain ⟨m, -, hρ⟩ := hagain 0
    obtain ⟨d, hd, haccepting, htransient, N, hstays⟩ := hρ.exists_component h
    -- the run is back at the node once it stays in the component `d`
    obtain ⟨l, hl, hback⟩ := hagain (m + N)
    have hmem := (hstays (l - m) (by omega)).1
    have hstart : g.moves.source (ρ l) = v := hback.run.start
    rw [Nat.add_sub_cancel' (by omega : m ≤ l), hstart] at hmem
    rw [h.component_eq hc hd hv hmem]
    exact ⟨haccepting, htransient⟩
  · intro hboth
    have hcore := (h.core_iff hc hv).2 hboth
    obtain ⟨e, he⟩ := hcore.stays
    obtain ⟨f, hf, hsource⟩ := he.exists_from ⟨.refl, .refl⟩
    obtain ⟨ρ, hrun, hagain, hoften⟩ := hcore.exists_run (fun _ hi => h.source_lt hi) hf
    refine ⟨ρ, fun n => ?_⟩
    obtain ⟨m, hm, hmf⟩ := hoften n
    have hsuffix := AcceptingFrom.suffix ⟨hrun, hagain⟩ m
    rw [hmf, hsource] at hsuffix
    exact ⟨m, hm, hsuffix⟩

/-- An edge is an interior edge of such a component if an accepting run takes it
    again and again. -/
theorem Linked.retaken_iff (h : g.Linked) {e : Edge α} (he : g.edge? i = some e)
    (hc : c ∈ g.components) (hsource : e.source ∈ c) :
    g.Retaken i ↔ (g.isAccepting c = true ∧ g.isTransient c = false) ∧ e.target ∈ c := by
  constructor
  · rintro ⟨v, ρ, hρ, hoften⟩
    obtain ⟨d, hd, haccepting, htransient, N, hstays⟩ := hρ.exists_component h
    obtain ⟨m, hm, hmi⟩ := hoften N
    obtain ⟨hs, ht⟩ := hstays m hm
    rw [hmi, moves_source he] at hs
    rw [hmi, moves_target he] at ht
    rw [h.component_eq hc hd hsource hs]
    exact ⟨⟨haccepting, htransient⟩, ht⟩
  · rintro ⟨hboth, htarget⟩
    have hcore := (h.core_iff hc hsource).2 hboth
    have hinside : g.moves.Inside e.source i :=
      (h.inside_iff hc hsource).2 ⟨e, h.mem_interiorEdges.2 ⟨he, hsource, htarget⟩⟩
    obtain ⟨ρ, hrun, hagain, hoften⟩ := hcore.exists_run (fun _ hi => h.source_lt hi) hinside
    exact ⟨e.source, ρ, ⟨hrun, hagain⟩, hoften⟩

/-- The nodes at the ends of edges that are taken again and again are passed
    again and again. -/
theorem Linked.recurs_of_retaken (h : g.Linked) {e : Edge α} (he : g.edge? i = some e)
    (hi : g.Retaken i) : g.Recurs e.source := by
  obtain ⟨c, hc, hsource⟩ := h.components_cover (h.source i e he)
  exact (h.recurs_iff hc hsource).2 ((h.retaken_iff he hc hsource).1 hi).1

/-! ## §2. What passes keep -/

/-- The graph got smaller, but it has the same accepting runs, and what such runs
    pass again and again has its marks. -/
structure Trims (g g' : Graph α) : Prop where
  runs : ∀ v ρ, g'.AcceptingFrom v ρ ↔ g.AcceptingFrom v ρ
  shrunk : ∃ R C D, g.Shrunk g' R C D ∧ (∀ v, g.Recurs v → ¬ C v) ∧ ∀ i, g.Retaken i → ¬ D i

/-- Which nodes recur does not change when a graph is trimmed. -/
theorem Trims.recurs_iff (h : g.Trims g') : g'.Recurs v ↔ g.Recurs v := by
  unfold Recurs
  simp only [h.runs]

/-- Which edges are retaken does not change when a graph is trimmed. -/
theorem Trims.retaken_iff (h : g.Trims g') : g'.Retaken i ↔ g.Retaken i := by
  unfold Retaken
  simp only [h.runs]

/-- A graph trims to itself. -/
theorem Trims.refl (h : g.Linked) : g.Trims g :=
  ⟨fun _ _ => Iff.rfl, _, _, _, .refl h, fun _ _ => id, fun _ _ => id⟩

/-- Trimming twice is trimming. -/
theorem Trims.trans (h : g.Trims g') (h' : g'.Trims g'') : g.Trims g'' := by
  refine ⟨fun v ρ => (h'.runs v ρ).trans (h.runs v ρ), ?_⟩
  obtain ⟨R, C, D, hshrunk, hC, hD⟩ := h.shrunk
  obtain ⟨R', C', D', hshrunk', hC', hD'⟩ := h'.shrunk
  refine ⟨_, _, _, hshrunk.trans hshrunk', fun v hv => ?_, fun i hi => ?_⟩
  · exact not_or.2 ⟨hC v hv, hC' v (h.recurs_iff.2 hv)⟩
  · exact not_or.2 ⟨hD i hi, hD' i (h.retaken_iff.2 hi)⟩

theorem Trims.linked (h : g.Trims g') : g'.Linked := by
  obtain ⟨R, C, D, hshrunk, -⟩ := h.shrunk
  exact hshrunk.linked

theorem Trims.acceptance (h : g.Trims g') : g'.acceptance = g.acceptance := by
  obtain ⟨R, C, D, hshrunk, -⟩ := h.shrunk
  exact hshrunk.acceptance

/-- A node that is left was there, with the same marks if accepting runs pass it
    again and again. -/
theorem Trims.node_of (h : g.Trims g') {n' : Node} (hn' : g'.node? v = some n') :
    ∃ n, g.node? v = some n ∧ (g.Recurs v → n'.attributes = n.attributes) := by
  obtain ⟨R, C, D, hshrunk, hC, -⟩ := h.shrunk
  obtain ⟨n, hn, -⟩ := hshrunk.node_of hn'
  exact ⟨n, hn, fun hv => hshrunk.node_attributes hn hn' (hC v hv)⟩

/-- An edge that is left was there between the same nodes, with the same marks if
    accepting runs take it again and again. -/
theorem Trims.edge_of (h : g.Trims g') {e' : Edge α} (he' : g'.edge? i = some e') :
    ∃ e, g.edge? i = some e ∧ e'.source = e.source ∧ e'.target = e.target
      ∧ (g.Retaken i → e'.attributes = e.attributes) := by
  obtain ⟨R, C, D, hshrunk, -, hD⟩ := h.shrunk
  obtain ⟨e, he, hs, ht, -⟩ := hshrunk.edge_of he'
  exact ⟨e, he, hs, ht, fun hi => hshrunk.edge_attributes he he' (hD i hi)⟩

/-- An edge is left by trimming just when both of its ends are. -/
theorem Trims.exists_edge_iff (h : g.Trims g') (hg : g.Linked) {e : Edge α}
    (he : g.edge? i = some e) :
    (∃ e', g'.edge? i = some e') ↔ g'.hasNode e.source = true ∧ g'.hasNode e.target = true := by
  obtain ⟨R, C, D, hshrunk, -⟩ := h.shrunk
  rw [hshrunk.exists_edge_iff he, hshrunk.hasNode_iff, hshrunk.hasNode_iff,
    and_iff_right (hg.source i e he), and_iff_right (hg.target i e he)]

end Graph

namespace Reduction

variable {α : Type} {r q : Reduction α} {i v : Nat}

open LinearTime.Graph

/-- Exits are edges that no run takes again and again. -/
theorem exits_trims (h : r.graph.Linked)
    (hexits : Steps r q (fun _ => False) (fun _ => False) r.graph.Exit) :
    r.graph.Trims q.graph := by
  refine ⟨fun v ρ => exits_accepting_iff h hexits, _, _, _, hexits.shrunk, fun _ _ => id, ?_⟩
  rintro i hi ⟨-, c, hc, e, hexit⟩
  obtain ⟨he, hsource, htarget⟩ := h.mem_exitEdges.1 hexit
  exact htarget ((h.retaken_iff he hc hsource).1 hi).2

/-- Accepting runs do not stay in a component whose marks are cleared. -/
theorem not_recurs_of_passed (h : r.graph.Linked) {c : Component} (hc : c ∈ r.graph.components)
    (hpassed : r.graph.Passed c) (hv : v ∈ c) : ¬ r.graph.Recurs v := by
  rw [h.recurs_iff hc hv]
  rintro ⟨haccepting, htransient⟩
  rcases hpassed.2 with hacc | htrans
  · exact Bool.noConfusion (haccepting.symm.trans hacc)
  · exact Bool.noConfusion (htrans.symm.trans htransient)

/-- The verdicts on all components trim the graph. -/
theorem verdicts_trims (h : r.graph.Linked)
    (hverdicts : Steps r q r.graph.NodeRemoved r.graph.NodeCleared r.graph.EdgeCleared) :
    r.graph.Trims q.graph := by
  refine ⟨fun v ρ => verdicts_accepting_iff h hverdicts, _, _, _, hverdicts.shrunk, ?_, ?_⟩
  · rintro v hv ⟨c, hc, hpassed, hmem⟩
    exact not_recurs_of_passed h hc hpassed hmem hv
  · rintro i hi ⟨c, hc, hpassed, e, hedge⟩
    obtain ⟨he, hsource⟩ := h.mem_edgesOf.1 hedge
    exact not_recurs_of_passed h hc hpassed hsource (h.recurs_of_retaken he hi)

/-- A pass keeps the accepting runs and the marks that they pass again and again. -/
theorem pass_trims (h : r.graph.Linked) : r.graph.Trims r.pass.graph := by
  obtain ⟨q, hexits, hverdicts⟩ := pass_steps h
  exact (exits_trims h hexits).trans (verdicts_trims hexits.shrunk.linked hverdicts)

/-- Any number of passes trims the graph. -/
theorem iterate_pass_trims (h : r.graph.Linked) (n : Nat) :
    r.graph.Trims (pass^[n] r).graph := by
  induction n generalizing r with
  | zero => exact .refl h
  | succ n ih =>
    rw [Function.iterate_succ_apply]
    exact (pass_trims h).trans (ih (pass_linked h))

/-! ## §3. What the last pass leaves -/

/-- A node that is not removed, and that no accepting run passes again and again,
    loses its marks. -/
theorem nodeCleared_of_not_recurs (h : r.graph.Linked) (hv : r.graph.hasNode v = true)
    (hstays : ¬ r.graph.NodeRemoved v) (hrecurs : ¬ r.graph.Recurs v) : r.graph.NodeCleared v := by
  obtain ⟨c, hc, hmem⟩ := h.components_cover hv
  rw [h.recurs_iff hc hmem] at hrecurs
  refine ⟨c, hc, ⟨fun hdead => hstays ⟨c, hc, hdead, hmem⟩, ?_⟩, hmem⟩
  cases haccepting : r.graph.isAccepting c with
  | false => exact .inl rfl
  | true => exact .inr (by simpa [haccepting] using hrecurs)

/-- When a pass changes nothing, nodes that no accepting run passes again and again
    have no marks. -/
theorem Settled.node_marks (h : r.graph.Linked) (hsettled : Settled r) {n : Node}
    (hn : r.graph.node? v = some n) (hrecurs : ¬ r.graph.Recurs v) :
    n.attributes.marks = .empty := by
  obtain ⟨q, hexits, hverdicts, hsame, hsame'⟩ := hsettled.exists_steps h
  obtain ⟨hnode, -⟩ := hexits.unchanged h hsame
  obtain ⟨hR, hC, -⟩ := hverdicts.idle hsame'
  have hattr : q.graph.attributes? v = some n.attributes :=
    (hnode v).trans (attributes?_of_node? hn)
  have hpassed := nodeCleared_of_not_recurs hexits.shrunk.linked
    (by rw [hasNode_eq_isSome, hattr]; rfl)
    (fun hdead => by rw [hR v hdead] at hattr; cases hattr)
    (fun hq => hrecurs ((exits_trims h hexits).recurs_iff.1 hq))
  have hcleared := Attributes.cleared_eq_self (hC v hpassed _ hattr)
  exact congrArg (·.marks) hcleared.symm

/-- Edges that no accepting run takes again and again have none either, if edges
    carry the marks. -/
theorem Settled.edge_marks (h : r.graph.Linked) (hsettled : Settled r)
    (hcarrier : r.graph.acceptance.carrier = .edges) {e : Edge α}
    (he : r.graph.edge? i = some e) (hretaken : ¬ r.graph.Retaken i) :
    e.attributes.marks = .empty := by
  obtain ⟨q, hexits, hverdicts, hsame, hsame'⟩ := hsettled.exists_steps h
  obtain ⟨-, hedge⟩ := hexits.unchanged h hsame
  obtain ⟨-, -, hexit⟩ := hexits.idle hsame
  obtain ⟨hR, -, hD⟩ := hverdicts.idle hsame'
  have hbare := bareEdge?_of_edge? he
  obtain ⟨c, hc, hsource⟩ := h.components_cover (h.source i e he)
  have hsize : e.bare.attributes.marks.size = 0 := by
    by_cases htarget : e.target ∈ c
    · -- the edge stays in its component, but no accepting run does
      have hrecurs : ¬ r.graph.Recurs e.source := fun hs =>
        hretaken ((h.retaken_iff he hc hsource).2 ⟨(h.recurs_iff hc hsource).1 hs, htarget⟩)
      have hbareq : q.graph.bareEdge? i = some e.bare := (hedge i).trans hbare
      obtain ⟨f, hf, hfs, -⟩ := edge?_of_bareEdge? hbareq
      have hfs : f.source = e.source := hfs
      obtain ⟨⟨a, ha⟩, -⟩ := hexits.shrunk.linked.bareEdge?_ends hbareq
      have ha : q.graph.attributes? e.source = some a := ha
      obtain ⟨d, hd, hpassed, hmem⟩ := nodeCleared_of_not_recurs hexits.shrunk.linked
        (by rw [hasNode_eq_isSome, ha]; rfl)
        (fun hdead => by rw [hR _ hdead] at ha; cases ha)
        (fun hq => hrecurs ((exits_trims h hexits).recurs_iff.1 hq))
      refine hD i ⟨d, hd, hpassed, f, ?_⟩ _ hbareq
      exact hexits.shrunk.linked.mem_edgesOf.2 ⟨hf, by rwa [hfs]⟩
    · refine hexit i ⟨hcarrier, c, hc, e, ?_⟩ _ hbare
      exact h.mem_exitEdges.2 ⟨he, hsource, htarget⟩
  exact congrArg (·.marks) (Attributes.cleared_eq_self hsize).symm

/-- The passes of a reduction, all together, and what is there before the last. -/
theorem repeatPass_trims (g : Graph α) (h : g.Linked) :
    ∃ r : Reduction α, repeatPass (g.size + g.markCount + 1) { graph := g } = r.pass
      ∧ Settled r ∧ g.Trims r.graph ∧ g.Trims r.pass.graph := by
  obtain ⟨n, hn, hsettled⟩ := repeatPass_settles g h
  have htrims := iterate_pass_trims (r := { graph := g }) h n
  exact ⟨_, hn, hsettled, htrims, htrims.trans (pass_trims htrims.linked)⟩

end Reduction

namespace Graph

variable {α : Type} {g g' : Graph α}

/-! ## §4. Reduction -/

/-- What a reduction leaves of a graph in which accepting runs start at the initial
    node. -/
structure Exact (g g' : Graph α) : Prop where
  /-- The nodes are those that accepting runs started at. -/
  node : ∀ v, g'.hasNode v = true ↔ ∃ ρ, g.AcceptingFrom v ρ
  /-- An edge that is left was there. -/
  edge_of : ∀ i e', g'.edge? i = some e' →
    ∃ e, g.edge? i = some e ∧ e'.source = e.source ∧ e'.target = e.target
  /-- An edge that was there is left if the nodes at its ends are. -/
  edge : ∀ i e, g.edge? i = some e → ((∃ e', g'.edge? i = some e')
    ↔ g'.hasNode e.source = true ∧ g'.hasNode e.target = true)
  /-- The nodes of accepting components that are not transient keep their marks,
      all others lose them. -/
  node_marks : ∀ c ∈ g.components, ∀ v ∈ c, ∀ n n', g.node? v = some n → g'.node? v = some n' →
    n'.attributes.marks =
      if g.isAccepting c && !g.isTransient c then n.attributes.marks else .empty
  /-- If edges carry the marks, then the interior edges of accepting components that
      are not transient keep theirs, and all others lose them. -/
  edge_marks : g.acceptance.carrier = .edges → ∀ c ∈ g.components, ∀ i e e',
    g.edge? i = some e → e.source ∈ c → g'.edge? i = some e' →
    e'.attributes.marks =
      if g.isAccepting c && !g.isTransient c && c.contains e.target then e.attributes.marks
      else .empty

/-- The passes leave what accepting runs need. -/
theorem Linked.repeatPass_exact (h : g.Linked) (hsets : 1 ≤ g.acceptance.sets) :
    g.Exact (Reduction.repeatPass (g.size + g.markCount + 1) { graph := g }).graph := by
  obtain ⟨r, heq, hsettled, hbefore, hafter⟩ := Reduction.repeatPass_trims g h
  obtain ⟨hnode, hedge⟩ := hsettled.unchanged hbefore.linked
  rw [heq]
  -- nodes, edges that are left, edges that are not, marks of nodes, marks of edges
  refine ⟨fun v => ⟨fun hv => ?_, ?_⟩, fun i e' he' => ?_,
    fun i e he => hafter.exists_edge_iff h he, fun c hc v hv n n' hn hn' => ?_,
    fun hcarrier c hc i e e' he hs he' => ?_⟩
  · obtain ⟨-, -, -, hlive⟩ := Reduction.repeatPass_accepting_iff (v := v) g h
    exact hlive hsets (by rw [heq]; exact hv)
  · rintro ⟨ρ, hρ⟩
    exact ((hafter.runs v ρ).2 hρ).hasNode hafter.linked
  · obtain ⟨e, he, hs, ht, -⟩ := hafter.edge_of he'
    exact ⟨e, he, hs, ht⟩
  · -- what accepting runs pass again and again was kept, the rest has been cleared
    obtain ⟨m, hm, hkept⟩ := hafter.node_of hn'
    obtain rfl := Option.some.inj (hn.symm.trans hm)
    split
    next hcore =>
      rw [Bool.and_eq_true, Bool.not_eq_true'] at hcore
      rw [hkept ((h.recurs_iff hc hv).2 hcore)]
    next hcore =>
      rw [Bool.and_eq_true, Bool.not_eq_true', ← h.recurs_iff hc hv] at hcore
      obtain ⟨m, hm, hattr⟩ := node?_of_attributes?
        ((hnode v).symm.trans (attributes?_of_node? hn'))
      rw [← hattr]
      exact hsettled.node_marks hbefore.linked hm fun hr => hcore (hbefore.recurs_iff.1 hr)
  · obtain ⟨f, hf, -, -, hkept⟩ := hafter.edge_of he'
    obtain rfl := Option.some.inj (he.symm.trans hf)
    split
    next hcore =>
      rw [Bool.and_eq_true, Bool.and_eq_true, Bool.not_eq_true', IndexSet.contains_iff] at hcore
      rw [hkept ((h.retaken_iff he hc hs).2 hcore)]
    next hcore =>
      rw [Bool.and_eq_true, Bool.and_eq_true, Bool.not_eq_true', IndexSet.contains_iff,
        ← h.retaken_iff he hc hs] at hcore
      obtain ⟨f, hf, -, -, hattr⟩ := edge?_of_bareEdge?
        ((hedge i).symm.trans (bareEdge?_of_edge? he'))
      have hattr : f.attributes = e'.attributes := hattr
      rw [← hattr]
      exact hsettled.edge_marks hbefore.linked (by rw [hbefore.acceptance]; exact hcarrier) hf
        fun hr => hcore (hbefore.retaken_iff.1 hr)

/-- A linked graph without nodes has no edges. -/
theorem Linked.edgeIndices_eq_nil (h : g.Linked) (hnodes : g.nodeIndices = []) :
    g.edgeIndices = [] := by
  refine List.eq_nil_iff_forall_not_mem.2 fun i hi => ?_
  obtain ⟨e, he⟩ := mem_edgeIndices.1 hi
  have hmem := mem_nodeIndices.2 (h.source i e he)
  rw [hnodes] at hmem
  exact List.not_mem_nil hmem

/-- The reduced graph is linked. -/
theorem Linked.reduce_linked (h : g.Linked) : g.reduce.graph.Linked := by
  cases hempty : g.isEmpty with
  | true =>
    rw [reduce_of_isEmpty hempty]
    exact h
  | false =>
    rw [reduce_of_nonempty hempty]
    obtain ⟨hlinked, -⟩ := Reduction.repeatPass_accepting_iff (v := 0) g h
    rcases Reduction.clearUnlessInitial_cases _ with ⟨hkept, -⟩ | ⟨hcleared, -⟩
    · rw [hkept]
      exact hlinked
    · rw [hcleared]
      exact linked_clear _

/-- The graph is not cleared if an accepting run starts at the initial node. -/
theorem Linked.reduce_eq (h : g.Linked) {ρ : Nat → Nat} (hρ : g.AcceptingFrom 0 ρ) :
    g.reduce.graph
      = (Reduction.repeatPass (g.size + g.markCount + 1) { graph := g }).graph := by
  obtain ⟨hlinked, -, hruns, -⟩ := Reduction.repeatPass_accepting_iff (v := 0) g h
  have hempty : g.isEmpty = false := by
    by_contra hempty
    exact not_accepting_of_isEmpty (Bool.not_eq_false _ ▸ hempty) h 0 ρ hρ
  have hinitial := ((hruns ρ).2 hρ).hasNode hlinked
  rw [reduce_of_nonempty hempty, Reduction.clearUnlessInitial_of_hasNode hinitial]

/-- Reduction leaves the nodes that accepting runs start at with the edges between
    them, and the marks that accepting runs pass again and again.  If no accepting
    run starts at the initial node, nothing is left. -/
theorem reduce_exact (h : g.Reached) (hsets : 1 ≤ g.acceptance.sets) :
    ((∃ ρ, g.AcceptingFrom 0 ρ) → g.Exact g.reduce.graph)
      ∧ ((¬ ∃ ρ, g.AcceptingFrom 0 ρ) →
        g.reduce.graph.nodeIndices = [] ∧ g.reduce.graph.edgeIndices = []) := by
  have hlinked := h.linked
  constructor
  · rintro ⟨ρ, hρ⟩
    rw [hlinked.reduce_eq hρ]
    exact hlinked.repeatPass_exact hsets
  · intro hnone
    obtain ⟨-, -, hempty⟩ := hlinked.reduce_accepting
    have hnodes := List.isEmpty_iff.1 ((hempty hsets).2 hnone)
    exact ⟨hnodes, hlinked.reduce_linked.edgeIndices_eq_nil hnodes⟩

/-- A marked edge to a node with a marked edge to itself, and from there one to a
    node without edges. -/
def markedPath : Graph String where
  acceptance := { carrier := .edges }
  nodes := #[some ⟨{}, some 0⟩, some ⟨{}, some 1⟩, some ⟨{}, none⟩]
  edges := #[some ⟨0, 1, {}, "-", { marks := .full 1 }, none, none⟩,
    some ⟨1, 1, {}, "-", { marks := .full 1 }, none, some 2⟩,
    some ⟨1, 2, {}, "-", { marks := .full 1 }, some 1, none⟩]

/-- The node in the middle can be passed again and again, the first edge cannot. -/
theorem reduce_exact_markedPath :
    (∃ ρ, markedPath.AcceptingFrom 0 ρ) ∧ markedPath.Exact markedPath.reduce.graph := by
  -- Three nodes first, then the edges in their order.
  have hreached : Reached markedPath := by
    refine .addEdge (g := ⟨{ carrier := .edges },
        #[some ⟨{}, some 0⟩, some ⟨{}, some 1⟩, some ⟨{}, none⟩],
        #[some ⟨0, 1, {}, "-", { marks := .full 1 }, none, none⟩,
          some ⟨1, 1, {}, "-", { marks := .full 1 }, none, none⟩]⟩) ?_
      (rfl : Graph.addEdge? _ 1 2 {} "-" { marks := .full 1 } = _)
    refine .addEdge (g := ⟨{ carrier := .edges },
        #[some ⟨{}, some 0⟩, some ⟨{}, none⟩, some ⟨{}, none⟩],
        #[some ⟨0, 1, {}, "-", { marks := .full 1 }, none, none⟩]⟩) ?_
      (rfl : Graph.addEdge? _ 1 1 {} "-" { marks := .full 1 } = _)
    refine .addEdge (g := ⟨{ carrier := .edges },
        #[some ⟨{}, none⟩, some ⟨{}, none⟩, some ⟨{}, none⟩], #[]⟩) ?_
      (rfl : Graph.addEdge? _ 0 1 {} "-" { marks := .full 1 } = _)
    exact .addNode (.addNode (.addNode (.start { carrier := .edges }) {}) {}) {}
  have hrun : markedPath.AcceptingFrom 0 fun n => if n = 0 then 0 else 1 := by
    refine ⟨⟨rfl, fun n => ?_, fun n => ?_⟩, fun k hk n => ⟨n + 1, Nat.le_succ n, ?_⟩⟩
    · cases n <;> exact ⟨_, rfl⟩
    · cases n <;> rfl
    · obtain rfl : k = 0 := Nat.lt_one_iff.1 hk
      exact ⟨_, rfl, MarkSet.mem_below.2 ⟨Nat.zero_lt_one, rfl⟩⟩
  exact ⟨⟨_, hrun⟩, (reduce_exact hreached (le_refl 1)).1 ⟨_, hrun⟩⟩

example : markedPath.reduce.graph.nodeIndices = [0, 1]
    ∧ markedPath.reduce.graph.edgeIndices = [0, 1]
    ∧ markedPath.reduce.graph.markCount = 1 := by decide

end Graph
end LinearTime
