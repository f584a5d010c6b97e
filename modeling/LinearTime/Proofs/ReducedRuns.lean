/-
  LinearTime.Proofs.ReducedRuns — reduction keeps the accepting runs.

  A run of a smaller graph is a run of the graph, with no fewer marks on the way.
  Conversely, let a run be accepting.  It stays in a component `c` that is
  accepting and not transient, which decides what a pass may do to it:

    * it takes no exit behind some place, so clearing exits takes marks from a
      finite part of it only;
    * none of its nodes is in a dead component, for it would stay there, so that
      component would be `c`;
    * the components whose marks are cleared are not `c`, so again only a finite
      part of the run loses marks.

  A pass that changes nothing leaves a graph whose every node leads into an
  accepting component, unless every run is accepting.

  Main results:
    * `pass_accepting_iff` — a pass keeps the accepting runs.
    * `Settled.exists_core` — what a pass that changes nothing tells.
    * `reduce_preserves_runs` — reduction keeps the accepting runs from the
      initial node.
-/

import LinearTime.Proofs.ReductionSteps

namespace LinearTime

/-- The same label, with no more marks. -/
def Attributes.Within (a' a : Attributes) : Prop :=
  a'.label = a.label ∧ ∀ k ∈ a'.marks, k ∈ a.marks

theorem Attributes.Within.refl (a : Attributes) : a.Within a := ⟨rfl, fun _ => id⟩

/-- Clearing marks adds none. -/
theorem Attributes.cleared_within (a : Attributes) : a.cleared.Within a :=
  ⟨rfl, fun k hk => absurd hk (OrderedSet.not_mem_empty k)⟩

namespace Graph

variable {α : Type} {g g' : Graph α} {R C D : Nat → Prop} {i v k : Nat} {ρ : Nat → Nat}

/-! ## §1. Runs of smaller graphs -/

/-- What is left of an edge leads from the same node to the same node, under the
    same guard and with the same action, and has no more marks than before. -/
theorem Shrunk.edge_within (h : g.Shrunk g' R C D) {e' : Edge α} (he' : g'.edge? i = some e') :
    ∃ e, g.edge? i = some e ∧ e'.source = e.source ∧ e'.target = e.target
      ∧ e'.guard = e.guard ∧ e'.action = e.action ∧ e'.attributes.Within e.attributes := by
  classical
  have hbare := bareEdge?_of_edge? he'
  rw [h.edge] at hbare
  obtain ⟨b, hb, hkept⟩ := Option.bind_eq_some_iff.1 hbare
  obtain ⟨e, he, rfl⟩ := Option.map_eq_some_iff.1 hb
  split at hkept
  · cases hkept
  · have hsame : e'.bare = if D i then e.bare.cleared else e.bare := (Option.some.inj hkept).symm
    refine ⟨e, he, ?_⟩
    split at hsame
    · obtain ⟨hs, ht, hguard, haction, ha⟩ := Edge.fields_of_bare hsame
      have ha : e'.attributes = e.attributes.cleared := ha
      exact ⟨hs, ht, hguard, haction, ha ▸ Attributes.cleared_within _⟩
    · obtain ⟨hs, ht, hguard, haction, ha⟩ := Edge.fields_of_bare hsame
      have ha : e'.attributes = e.attributes := ha
      exact ⟨hs, ht, hguard, haction, ha ▸ .refl _⟩

/-- What is left of an edge goes where the edge went and has no marks that it did not have. -/
theorem Shrunk.edge_of (h : g.Shrunk g' R C D) {e' : Edge α} (he' : g'.edge? i = some e') :
    ∃ e, g.edge? i = some e ∧ e'.source = e.source ∧ e'.target = e.target
      ∧ ∀ k ∈ e'.attributes.marks, k ∈ e.attributes.marks := by
  obtain ⟨e, he, hs, ht, -, -, hwithin⟩ := h.edge_within he'
  exact ⟨e, he, hs, ht, hwithin.2⟩

/-- What is left of a node has the same label and no more marks. -/
theorem Shrunk.node_within (h : g.Shrunk g' R C D) {n' : Node} (hn' : g'.node? v = some n') :
    ∃ n, g.node? v = some n ∧ n'.attributes.Within n.attributes := by
  classical
  have hattr := attributes?_of_node? hn'
  rw [h.node] at hattr
  split at hattr
  · cases hattr
  · split at hattr
    · obtain ⟨a, ha, heq⟩ := Option.map_eq_some_iff.1 hattr
      obtain ⟨n, hn, rfl⟩ := node?_of_attributes? ha
      exact ⟨n, hn, heq ▸ Attributes.cleared_within _⟩
    · obtain ⟨n, hn, ha⟩ := node?_of_attributes? hattr
      exact ⟨n, hn, ha ▸ .refl _⟩

/-- What is left of a node has no marks that it did not have. -/
theorem Shrunk.node_of (h : g.Shrunk g' R C D) {n' : Node} (hn' : g'.node? v = some n') :
    ∃ n, g.node? v = some n ∧ ∀ k ∈ n'.attributes.marks, k ∈ n.attributes.marks := by
  obtain ⟨n, hn, hwithin⟩ := h.node_within hn'
  exact ⟨n, hn, hwithin.2⟩

/-- The nodes that are left are those that were not removed. -/
theorem Shrunk.hasNode_iff (h : g.Shrunk g' R C D) :
    g'.hasNode v = true ↔ g.hasNode v = true ∧ ¬ R v := by
  classical
  rw [hasNode_eq_isSome, hasNode_eq_isSome, h.node]
  by_cases hR : R v
  · simp [hR]
  · by_cases hC : C v <;> simp [hR, hC]

/-- Edges go with the nodes at their ends only. -/
theorem Shrunk.exists_edge_iff (h : g.Shrunk g' R C D) {e : Edge α} (he : g.edge? i = some e) :
    (∃ e', g'.edge? i = some e') ↔ ¬ R e.source ∧ ¬ R e.target := by
  classical
  rw [← not_or]
  constructor
  · rintro ⟨e', he'⟩ hends
    have hbare := h.edge i
    rw [bareEdge?_of_edge? he', bareEdge?_of_edge? he] at hbare
    exact absurd (hbare.trans (if_pos hends)) (by simp)
  · intro hends
    have hbare : g'.bareEdge? i = some (if D i then e.bare.cleared else e.bare) := by
      rw [h.edge, bareEdge?_of_edge? he]
      exact if_neg hends
    obtain ⟨e', he', -⟩ := edge?_of_bareEdge? hbare
    exact ⟨e', he'⟩

/-- An edge whose marks were not cleared has them all. -/
theorem Shrunk.edge_attributes (h : g.Shrunk g' R C D) {e e' : Edge α}
    (he : g.edge? i = some e) (he' : g'.edge? i = some e') (hD : ¬ D i) :
    e'.attributes = e.attributes := by
  classical
  have hbare := h.edge i
  rw [bareEdge?_of_edge? he', bareEdge?_of_edge? he, Option.bind_some, if_neg hD] at hbare
  split at hbare
  · cases hbare
  · have heq := Option.some.inj hbare
    exact congrArg (·.attributes) heq

/-- So has a node. -/
theorem Shrunk.node_attributes (h : g.Shrunk g' R C D) {n n' : Node}
    (hn : g.node? v = some n) (hn' : g'.node? v = some n') (hC : ¬ C v) :
    n'.attributes = n.attributes := by
  classical
  have hattr := h.node v
  rw [attributes?_of_node? hn', attributes?_of_node? hn, if_neg hC] at hattr
  split at hattr
  · cases hattr
  · exact Option.some.inj hattr

/-- An edge passes the marks that another one passes if it has the marks of that
    one, or starts at a node with the marks where that one starts. -/
theorem Carries.of_carries {i' : Nat} (hcarries : g.Carries k i)
    (hacceptance : g'.acceptance = g.acceptance)
    (hnodes : ∀ e n, g.edge? i = some e → g.node? e.source = some n →
      ∃ e' n', g'.edge? i' = some e' ∧ g'.node? e'.source = some n'
        ∧ (k ∈ n.attributes.marks → k ∈ n'.attributes.marks))
    (hedges : ∀ e, g.edge? i = some e →
      ∃ e', g'.edge? i' = some e' ∧ (k ∈ e.attributes.marks → k ∈ e'.attributes.marks)) :
    g'.Carries k i' := by
  unfold Carries at hcarries ⊢
  rw [hacceptance]
  -- marks are looked for at the source or on the edge itself
  split at hcarries
  next =>
    obtain ⟨e, n, he, hn, hk⟩ := hcarries
    obtain ⟨e', n', he', hn', hmarks⟩ := hnodes e n he hn
    exact ⟨e', n', he', hn', hmarks hk⟩
  next =>
    obtain ⟨e, he, hk⟩ := hcarries
    obtain ⟨e', he', hmarks⟩ := hedges e he
    exact ⟨e', he', hmarks hk⟩

/-- An accepting run of one graph is one of another that has its edges between the
    same nodes, as long as they pass the same marks from some place on. -/
theorem AcceptingFrom.transfer (hρ : g.AcceptingFrom v ρ)
    (hacceptance : g'.acceptance = g.acceptance)
    (hedge : ∀ n e, g.edge? (ρ n) = some e →
      ∃ e', g'.edge? (ρ n) = some e' ∧ e'.source = e.source ∧ e'.target = e.target) {N : Nat}
    (hcarries : ∀ n, N ≤ n → ∀ k, g.Carries k (ρ n) → g'.Carries k (ρ n)) :
    g'.AcceptingFrom v ρ := by
  -- the two graphs agree on where every edge of the run leads
  have hmove (n : Nat) : g'.moves.allowed (ρ n)
      ∧ g'.moves.source (ρ n) = g.moves.source (ρ n)
      ∧ g'.moves.target (ρ n) = g.moves.target (ρ n) := by
    obtain ⟨e, he⟩ := hρ.run.allowed n
    obtain ⟨e', he', hs, ht⟩ := hedge n e he
    rw [moves_source he, moves_source he', moves_target he, moves_target he', hs, ht]
    exact ⟨⟨e', he'⟩, rfl, rfl⟩
  refine ⟨⟨?_, fun n => (hmove n).1, fun n => ?_⟩, fun k hk n => ?_⟩
  · rw [(hmove 0).2.1]
    exact hρ.run.start
  · rw [(hmove (n + 1)).2.1, (hmove n).2.2]
    exact hρ.run.next n
  -- a set is passed again and again, so also beyond `N`
  · rw [hacceptance] at hk
    obtain ⟨m, hm, hpassed⟩ := hρ.again k hk (max n N)
    exact ⟨m, by omega, hcarries m (by omega) k hpassed⟩

/-- An accepting run of the smaller graph is one of the graph. -/
theorem Shrunk.accepting_of (h : g.Shrunk g' R C D) (hρ : g'.AcceptingFrom v ρ) :
    g.AcceptingFrom v ρ := by
  refine hρ.transfer h.acceptance.symm (fun n e' he' => ?_) (N := 0) fun n _ k hcarries =>
    hcarries.of_carries h.acceptance.symm (fun e' n' he' hn' => ?_) fun e' he' => ?_
  · obtain ⟨e, he, hs, ht, -⟩ := h.edge_of he'
    exact ⟨e, he, hs.symm, ht.symm⟩
  · obtain ⟨e, he, hs, -⟩ := h.edge_of he'
    obtain ⟨nd, hnd, hmarks⟩ := h.node_of hn'
    exact ⟨e, nd, he, hs ▸ hnd, hmarks k⟩
  · obtain ⟨e, he, -, -, hmarks⟩ := h.edge_of he'
    exact ⟨e, he, hmarks k⟩

/-- An accepting run stays one if none of its nodes is removed and only a finite
    part of it loses marks. -/
theorem Shrunk.accepting (h : g.Shrunk g' R C D) (hρ : g.AcceptingFrom v ρ)
    (hR : ∀ n, ¬ R (g.moves.source (ρ n))) {N : Nat}
    (hlate : ∀ n, N ≤ n → ¬ C (g.moves.source (ρ n)) ∧ ¬ D (ρ n)) : g'.AcceptingFrom v ρ := by
  -- the ends of an edge of the run are where it starts and where the next one does
  have hedge (n : Nat) (e : Edge α) (he : g.edge? (ρ n) = some e) :
      ∃ e', g'.edge? (ρ n) = some e' ∧ e'.source = e.source ∧ e'.target = e.target := by
    have hs : ¬ R e.source := moves_source he ▸ hR n
    have ht : ¬ R e.target := moves_target he ▸ hρ.run.next n ▸ hR (n + 1)
    obtain ⟨e', he'⟩ := (h.exists_edge_iff he).2 ⟨hs, ht⟩
    obtain ⟨f, hf, hsource, htarget, -⟩ := h.edge_of he'
    obtain rfl := Option.some.inj (he.symm.trans hf)
    exact ⟨e', he', hsource, htarget⟩
  refine hρ.transfer h.acceptance hedge (N := N) fun m hm k hcarries =>
    hcarries.of_carries h.acceptance (fun e n he hn => ?_) fun e he => ?_
  · obtain ⟨e', he', hs, -⟩ := hedge m e he
    obtain ⟨n', hn'⟩ := Graph.hasNode_iff.1 (h.linked.source _ e' he')
    rw [hs] at hn'
    have hC : ¬ C e.source := moves_source he ▸ (hlate m hm).1
    exact ⟨e', n', he', hs ▸ hn', fun hk => h.node_attributes hn hn' hC ▸ hk⟩
  · obtain ⟨e', he', -⟩ := hedge m e he
    exact ⟨e', he', fun hk => h.edge_attributes he he' (hlate m hm).2 ▸ hk⟩

/-! ## §2. Passes -/

/-- Along a run every later node is reached from every earlier one. -/
theorem AcceptingFrom.reaches (hρ : g.AcceptingFrom v ρ) {m n : Nat} (hmn : m ≤ n) :
    g.moves.Reaches (g.moves.source (ρ m)) (g.moves.source (ρ n)) := hρ.run.reaches hmn

/-- Clearing the marks of exits. -/
theorem AcceptingFrom.clearExits (h : g.Linked) (hρ : g.AcceptingFrom v ρ)
    (hshrunk : g.Shrunk g' (fun _ => False) (fun _ => False) g.Exit) : g'.AcceptingFrom v ρ := by
  obtain ⟨c, hc, -, -, N, hstays⟩ := hρ.exists_component h
  refine hshrunk.accepting hρ (fun _ => id) (N := N) fun n hn => ⟨id, ?_⟩
  rintro ⟨-, d, hd, e, hexit⟩
  obtain ⟨he, hsource, htarget⟩ := h.mem_exitEdges.1 hexit
  obtain ⟨hsc, htc⟩ := hstays n hn
  rw [moves_source he] at hsc
  rw [moves_target he] at htc
  exact htarget ((h.mem_iff_of_mem hc hd hsc hsource).1 htc)

/-- Carrying out the verdicts. -/
theorem AcceptingFrom.verdicts (h : g.Linked) (hρ : g.AcceptingFrom v ρ)
    (hshrunk : g.Shrunk g' g.NodeRemoved g.NodeCleared g.EdgeCleared) : g'.AcceptingFrom v ρ := by
  obtain ⟨c, hc, haccepting, htransient, N, hstays⟩ := hρ.exists_component h
  -- The run stays in an accepting component that is not transient.
  have hnotPassed : ¬ g.Passed c := by
    rintro ⟨-, hacc | htrans⟩
    · rw [haccepting] at hacc
      cases hacc
    · rw [htransient] at htrans
      cases htrans
  refine hshrunk.accepting hρ (fun n => ?_) (N := N) fun n hn => ⟨?_, ?_⟩
  · -- from a dead component the run would never come to `c`
    rintro ⟨d, hd, hdead, hmem⟩
    have hwalk := hρ.reaches (Nat.le_max_left n N)
    have hmemd := h.mem_of_terminal hdead.2 hmem hwalk
    have hmemc := (hstays (max n N) (by omega)).1
    have heq := h.component_eq hd hc hmemd hmemc
    rw [heq] at hdead
    rw [hdead.1] at haccepting
    cases haccepting
  · rintro ⟨d, hd, hpassed, hmem⟩
    have heq := h.component_eq hd hc hmem (hstays n hn).1
    exact hnotPassed (heq ▸ hpassed)
  · rintro ⟨d, hd, hpassed, e, hedge⟩
    obtain ⟨he, hsource⟩ := h.mem_edgesOf.1 hedge
    have hmem := (hstays n hn).1
    rw [moves_source he] at hmem
    have heq := h.component_eq hd hc hsource hmem
    exact hnotPassed (heq ▸ hpassed)

end Graph

namespace Reduction

variable {α : Type} {r q : Reduction α} {v : Nat} {ρ : Nat → Nat}

/-- Clearing exits keeps the accepting runs. -/
theorem exits_accepting_iff (h : r.graph.Linked)
    (hexits : Steps r q (fun _ => False) (fun _ => False) r.graph.Exit) :
    q.graph.AcceptingFrom v ρ ↔ r.graph.AcceptingFrom v ρ :=
  ⟨hexits.shrunk.accepting_of, fun hρ => hρ.clearExits h hexits.shrunk⟩

/-- Carrying out the verdicts keeps them too. -/
theorem verdicts_accepting_iff (h : r.graph.Linked)
    (hverdicts : Steps r q r.graph.NodeRemoved r.graph.NodeCleared r.graph.EdgeCleared) :
    q.graph.AcceptingFrom v ρ ↔ r.graph.AcceptingFrom v ρ :=
  ⟨hverdicts.shrunk.accepting_of, fun hρ => hρ.verdicts h hverdicts.shrunk⟩

/-- A pass keeps the accepting runs. -/
theorem pass_accepting_iff (h : r.graph.Linked) :
    r.pass.graph.AcceptingFrom v ρ ↔ r.graph.AcceptingFrom v ρ := by
  obtain ⟨q, hexits, hverdicts⟩ := pass_steps h
  have hlast := verdicts_accepting_iff (v := v) (ρ := ρ) hexits.shrunk.linked hverdicts
  exact hlast.trans (exits_accepting_iff h hexits)

/-- Any number of passes keeps the accepting runs, edge by edge. -/
theorem iterate_pass_accepting_iff (h : r.graph.Linked) (n : Nat) :
    (pass^[n] r).graph.AcceptingFrom v ρ ↔ r.graph.AcceptingFrom v ρ := by
  induction n generalizing r with
  | zero => exact Iff.rfl
  | succ n ih =>
    rw [Function.iterate_succ_apply, ih (pass_linked h)]
    exact pass_accepting_iff h

/-- Passes keep the acceptance condition. -/
theorem iterate_pass_acceptance (h : r.graph.Linked) (n : Nat) :
    (pass^[n] r).graph.acceptance = r.graph.acceptance := by
  induction n generalizing r with
  | zero => rfl
  | succ n ih =>
    obtain ⟨q, hexits, hverdicts⟩ := pass_steps h
    rw [Function.iterate_succ_apply, ih (pass_linked h), hverdicts.shrunk.acceptance,
      hexits.shrunk.acceptance]

/-! ## §3. After the last pass -/

/-- The next pass removes no node and clears no mark. -/
def Settled (r : Reduction α) : Prop := r.pass.changes = r.changes

end Reduction

namespace Graph

variable {α : Type} {g : Graph α} {v : Nat}

/-- Every node leads into a component that no edge leaves. -/
theorem Linked.exists_terminal (h : g.Linked) (hv : g.hasNode v = true) :
    ∃ c ∈ g.components, g.isTerminal c = true ∧ ∃ u ∈ c, g.moves.Reaches v u := by
  classical
  -- on the number of nodes that can be reached
  obtain ⟨n, hn⟩ : ∃ n, ((Finset.range g.nodes.size).filter (g.moves.Reaches v)).card = n :=
    ⟨_, rfl⟩
  induction n using Nat.strong_induction_on generalizing v with
  | _ n ih =>
    obtain ⟨c, hc, hvc⟩ := h.components_cover hv
    by_cases hterminal : g.isTerminal c = true
    · exact ⟨c, hc, hterminal, v, hvc, .refl⟩
    · rw [h.isTerminal_iff] at hterminal
      push Not at hterminal
      obtain ⟨i, e, he, hsource, htarget⟩ := hterminal
      have hvx : g.moves.Reaches v e.target := by
        refine (h.mutual_of_mem hc hvc hsource).1.tail ?_
        exact moves_edge_iff.2 ⟨i, e, he, rfl, rfl⟩
      have hback : ¬ g.moves.Reaches e.target v := fun hback =>
        htarget (h.mem_of_mutual hc hvc ⟨hvx, hback⟩)
      obtain ⟨nd, hnd⟩ := hasNode_iff.1 hv
      have hlt : ((Finset.range g.nodes.size).filter (g.moves.Reaches e.target)).card < n := by
        rw [← hn]
        refine Finset.card_lt_card (Finset.ssubset_iff_of_subset ?_ |>.2 ⟨v, ?_, ?_⟩)
        · intro w hw
          rw [Finset.mem_filter] at hw ⊢
          exact ⟨hw.1, Relation.ReflTransGen.trans hvx hw.2⟩
        · rw [Finset.mem_filter, Finset.mem_range]
          exact ⟨node?_lt hnd, .refl⟩
        · intro hmem
          exact hback (Finset.mem_filter.1 hmem).2
      obtain ⟨d, hd, hterminal, u, hu, hxu⟩ := ih _ hlt (h.target i e he) rfl
      exact ⟨d, hd, hterminal, u, hu, Relation.ReflTransGen.trans hvx hxu⟩

/-- A run from a node that leads into a core. -/
theorem Linked.exists_accepting (h : g.Linked) {u : Nat} (hvu : g.moves.Reaches v u)
    (hcore : g.moves.Core u g.acceptance.sets g.Carries) : ∃ ρ, g.AcceptingFrom v ρ := by
  obtain ⟨ρ, hrun, hagain⟩ :=
    (Moves.exists_run_iff fun _ hi => h.source_lt hi).2 ⟨u, hvu, hcore⟩
  exact ⟨ρ, hrun, hagain⟩

/-- An accepting run gets into a class with moves of every mark. -/
theorem AcceptingFrom.exists_core (h : g.Linked) {ρ : Nat → Nat} (hρ : g.AcceptingFrom v ρ) :
    ∃ u, g.moves.Reaches v u ∧ g.moves.Core u g.acceptance.sets g.Carries :=
  hρ.run.exists_core (fun n => h.source_lt (hρ.run.allowed n)) hρ.again

/-- Accepting runs start at nodes of the graph. -/
theorem AcceptingFrom.hasNode (h : g.Linked) {ρ : Nat → Nat} (hρ : g.AcceptingFrom v ρ) :
    g.hasNode v = true := by
  obtain ⟨e, he⟩ := hρ.run.allowed 0
  rw [← hρ.run.start, moves_source he]
  exact h.source _ e he

/-- Edges do not stay in a transient component.  So it is not accepting once its
    nodes have lost their marks, if there is an acceptance set at all. -/
theorem Linked.isAccepting_of_transient (h : g.Linked) (hsets : 0 < g.acceptance.sets)
    {c : Component} (hc : c ∈ g.components) {u : Nat} (hu : u ∈ c)
    (htransient : g.isTransient c = true)
    (hcleared : ∀ w ∈ c, ∀ a, g.attributes? w = some a → a.marks.size = 0) :
    g.isAccepting c = false := by
  by_contra haccepting
  -- An accepting component has mark 0 on a node or on an edge inside.
  have hmark : 0 ∈ g.witnessed c :=
    MarkSet.covers_iff.1 (Bool.not_eq_false _ ▸ haccepting) 0 hsets
  unfold witnessed at hmark
  split at hmark
  · obtain ⟨m, hm, hzero⟩ := (MarkSet.mem_unionAll _).1 hmark
    obtain ⟨w, hw, hm⟩ := List.mem_filterMap.1 hm
    obtain ⟨n, hn, rfl⟩ := Option.map_eq_some_iff.1 hm
    have hnil : n.attributes.marks.toList = [] :=
      List.length_eq_zero_iff.1 (hcleared w hw _ (attributes?_of_node? hn))
    rw [← OrderedSet.mem_toList, hnil] at hzero
    exact absurd hzero List.not_mem_nil
  · obtain ⟨m, hm, -⟩ := (MarkSet.mem_unionAll _).1 hmark
    obtain ⟨⟨i, e⟩, he, -⟩ := List.mem_map.1 hm
    exact (h.isTransient_iff hc hu).1 htransient i ((h.inside_iff hc hu).2 ⟨e, he⟩)

end Graph

namespace Reduction

variable {α : Type} {r : Reduction α} {v : Nat} {ρ : Nat → Nat}

/-- If a pass counts no change, then neither half of it does. -/
theorem Settled.exists_steps (h : r.graph.Linked) (hsettled : Settled r) :
    ∃ q : Reduction α, Steps r q (fun _ => False) (fun _ => False) r.graph.Exit
      ∧ Steps q r.pass q.graph.NodeRemoved q.graph.NodeCleared q.graph.EdgeCleared
      ∧ q.changes = r.changes ∧ r.pass.changes = q.changes := by
  obtain ⟨q, hexits, hverdicts⟩ := pass_steps h
  have hchanges : r.pass.changes = r.changes := hsettled
  have hle := hexits.changes_le
  have hle' := hverdicts.changes_le
  exact ⟨q, hexits, hverdicts, by omega, by omega⟩

/-- A pass that counts no change changes no node and no edge. -/
theorem Settled.unchanged (h : r.graph.Linked) (hsettled : Settled r) :
    (∀ v, r.pass.graph.attributes? v = r.graph.attributes? v)
      ∧ ∀ i, r.pass.graph.bareEdge? i = r.graph.bareEdge? i := by
  obtain ⟨q, hexits, hverdicts, hsame, hsame'⟩ := hsettled.exists_steps h
  obtain ⟨hnode, hedge⟩ := hexits.unchanged h hsame
  obtain ⟨hnode', hedge'⟩ := hverdicts.unchanged hexits.shrunk.linked hsame'
  exact ⟨fun v => (hnode' v).trans (hnode v), fun i => (hedge' i).trans (hedge i)⟩

/-- When a pass changes nothing, all that is left leads into accepting components,
    if there is an acceptance set at all. -/
theorem Settled.exists_accepting (h : r.graph.Linked) (hsettled : Settled r)
    (hsets : 0 < r.graph.acceptance.sets) (hv : r.graph.hasNode v = true) :
    ∃ ρ, r.graph.AcceptingFrom v ρ := by
  obtain ⟨q, hexits, hverdicts, hsame, hsame'⟩ := hsettled.exists_steps h
  have hlinked := hexits.shrunk.linked
  obtain ⟨hnode, -⟩ := hexits.unchanged h hsame
  obtain ⟨hR, hC, -⟩ := hverdicts.idle hsame'
  have hvq : q.graph.hasNode v = true := by
    rw [Graph.hasNode_eq_isSome, hnode, ← Graph.hasNode_eq_isSome]
    exact hv
  -- From every node some terminal component is reached; it would be removed if it were not
  -- accepting.
  obtain ⟨c, hc, hterminal, u, hu, hvu⟩ := hlinked.exists_terminal hvq
  obtain ⟨a, ha⟩ : ∃ a, q.graph.attributes? u = some a := by
    have hlive := hlinked.hasNode_of_mem hc hu
    rw [Graph.hasNode_eq_isSome] at hlive
    exact Option.isSome_iff_exists.1 hlive
  have hnotDead : ¬ q.graph.Dead c := by
    intro hdead
    have := hR u ⟨c, hc, hdead, hu⟩
    rw [ha] at this
    cases this
  have haccepting : q.graph.isAccepting c = true := by
    by_contra hacc
    exact hnotDead ⟨Bool.not_eq_true _ ▸ hacc, hterminal⟩
  have htransient : q.graph.isTransient c = false := by
    by_contra htransient
    have htransient : q.graph.isTransient c = true := by simpa using htransient
    have hpassed : q.graph.Passed c := ⟨hnotDead, .inr htransient⟩
    have hnot := hlinked.isAccepting_of_transient
      (by rw [hexits.shrunk.acceptance]; exact hsets) hc hu htransient
      fun w hw => hC w ⟨c, hc, hpassed, hw⟩
    exact Bool.noConfusion (haccepting.symm.trans hnot)
  have hcore := (hlinked.core_iff hc hu).2 ⟨haccepting, htransient⟩
  obtain ⟨ρ, hρ⟩ := hlinked.exists_accepting hvu hcore
  exact ⟨ρ, hexits.shrunk.accepting_of hρ⟩

/-- The reduction of a graph: passes, the last of which changes nothing. -/
theorem repeatPass_settles (g : Graph α) (h : g.Linked) :
    ∃ n, repeatPass (g.size + g.markCount + 1) { graph := g } = (pass^[n] { graph := g }).pass
      ∧ Settled (pass^[n] ({ graph := g } : Reduction α)) := by
  have hfuel : ({ graph := g } : Reduction α).graph.content < g.size + g.markCount + 1 := by
    have := g.content_eq
    show g.content < _
    omega
  exact repeatPass_fixed _ (r := { graph := g }) h hfuel

/-- What the passes of a reduction keep, and what is left after them. -/
theorem repeatPass_accepting_iff (g : Graph α) (h : g.Linked) :
    (repeatPass (g.size + g.markCount + 1) { graph := g }).graph.Linked
      ∧ (repeatPass (g.size + g.markCount + 1) { graph := g }).graph.acceptance = g.acceptance
      ∧ (∀ ρ, (repeatPass (g.size + g.markCount + 1) { graph := g }).graph.AcceptingFrom v ρ
          ↔ g.AcceptingFrom v ρ)
      ∧ (0 < g.acceptance.sets →
          (repeatPass (g.size + g.markCount + 1) { graph := g }).graph.hasNode v = true →
            ∃ ρ, g.AcceptingFrom v ρ) := by
  -- The last pass changes nothing, so that the one before it has settled.
  obtain ⟨n, hn, hsettled⟩ := repeatPass_settles g h
  rw [hn]
  have hlinked := iterate_pass_linked (r := { graph := g }) h n
  have hacceptance := iterate_pass_acceptance (r := { graph := g }) h n
  refine ⟨pass_linked hlinked, ?_, fun ρ => ?_, fun hsets hv => ?_⟩
  · have hlast := iterate_pass_acceptance (r := pass^[n] { graph := g }) hlinked 1
    exact hlast.trans hacceptance
  · rw [pass_accepting_iff hlinked]
    exact iterate_pass_accepting_iff (r := { graph := g }) h n
  · have hbefore : (pass^[n] ({ graph := g } : Reduction α)).graph.hasNode v = true := by
      rw [Graph.hasNode_eq_isSome, ← (Settled.unchanged hlinked hsettled).1,
        ← Graph.hasNode_eq_isSome]
      exact hv
    obtain ⟨ρ, hρ⟩ := Settled.exists_accepting hlinked hsettled
      (by rw [hacceptance]; exact hsets) hbefore
    exact ⟨ρ, (iterate_pass_accepting_iff (r := { graph := g }) h n).1 hρ⟩

/-- The graph is left as it is, or its initial node is gone and it is cleared. -/
theorem clearUnlessInitial_cases (r : Reduction α) :
    (r.clearUnlessInitial = r ∧ (r.graph.isEmpty = true ∨ r.graph.hasNode 0 = true))
      ∨ (r.clearUnlessInitial.graph = r.graph.clear ∧ r.graph.hasNode 0 = false) := by
  unfold clearUnlessInitial
  split
  next hkept => exact .inl ⟨rfl, (Bool.or_eq_true_iff.1 hkept).symm⟩
  next hgone => exact .inr ⟨rfl, by simp_all⟩

/-- A graph that has its initial node is left as it is. -/
theorem clearUnlessInitial_of_hasNode (h : r.graph.hasNode 0 = true) :
    r.clearUnlessInitial = r := by
  unfold clearUnlessInitial
  rw [h, Bool.true_or, if_pos rfl]

end Reduction

namespace Graph

variable {α : Type} {g : Graph α}

/-! ## §4. Reduction -/

theorem reduce_of_isEmpty (h : g.isEmpty = true) : g.reduce = { graph := g } := if_pos h

theorem reduce_of_nonempty (h : g.isEmpty = false) : g.reduce
    = (Reduction.repeatPass (g.size + g.markCount + 1) { graph := g }).clearUnlessInitial :=
  if_neg (by rw [h]; exact Bool.false_ne_true)

/-- An empty graph has no node. -/
theorem not_hasNode_of_isEmpty (h : g.isEmpty = true) (v : Nat) : ¬ g.hasNode v = true := by
  intro hv
  have hmem := mem_nodeIndices.2 hv
  rw [List.isEmpty_iff.1 h] at hmem
  exact absurd hmem List.not_mem_nil

/-- An empty graph has no accepting run. -/
theorem not_accepting_of_isEmpty (hempty : g.isEmpty = true) (h : g.Linked) (v : Nat)
    (ρ : Nat → Nat) : ¬ g.AcceptingFrom v ρ := fun hρ =>
  not_hasNode_of_isEmpty hempty v (hρ.hasNode h)

/-- What reduction does with the runs from the initial node. -/
theorem Linked.reduce_accepting (h : g.Linked) :
    g.reduce.graph.acceptance = g.acceptance
      ∧ (∀ ρ, g.reduce.graph.AcceptingFrom 0 ρ ↔ g.AcceptingFrom 0 ρ)
      ∧ (0 < g.acceptance.sets →
          (g.reduce.graph.isEmpty = true ↔ ¬ ∃ ρ, g.AcceptingFrom 0 ρ)) := by
  cases hempty : g.isEmpty with
  | true =>
    rw [reduce_of_isEmpty hempty]
    exact ⟨rfl, fun ρ => Iff.rfl, fun _ => iff_of_true hempty fun ⟨ρ, hρ⟩ =>
      not_accepting_of_isEmpty hempty h 0 ρ hρ⟩
  | false =>
    rw [reduce_of_nonempty hempty]
    obtain ⟨hlinked, hacceptance, hruns, hlive⟩ :=
      Reduction.repeatPass_accepting_iff (v := 0) g h
    revert hlinked hacceptance hruns hlive
    generalize Reduction.repeatPass (g.size + g.markCount + 1) { graph := g } = r
    intro hlinked hacceptance hruns hlive
    by_cases hinitial : r.graph.hasNode 0 = true
    · rw [Reduction.clearUnlessInitial_of_hasNode hinitial]
      exact ⟨hacceptance, hruns, fun hsets =>
        iff_of_false (fun hnil => not_hasNode_of_isEmpty hnil 0 hinitial)
          fun hnone => hnone (hlive hsets hinitial)⟩
    · -- no run starts at a node that is gone, and nothing is left
      have hnone (ρ : Nat → Nat) : ¬ g.AcceptingFrom 0 ρ := fun hρ =>
        hinitial (((hruns ρ).2 hρ).hasNode hlinked)
      obtain ⟨hl, ha, hnil⟩ : r.clearUnlessInitial.graph.Linked
          ∧ r.clearUnlessInitial.graph.acceptance = g.acceptance
          ∧ r.clearUnlessInitial.graph.isEmpty = true := by
        rcases Reduction.clearUnlessInitial_cases r with ⟨hkept, hnil | hzero⟩ | ⟨hcleared, -⟩
        · rw [hkept]
          exact ⟨hlinked, hacceptance, hnil⟩
        · exact absurd hzero hinitial
        · rw [hcleared]
          exact ⟨linked_clear _, hacceptance, rfl⟩
      exact ⟨ha, fun ρ => iff_of_false (not_accepting_of_isEmpty hnil hl 0 ρ) (hnone ρ),
        fun _ => iff_of_true hnil fun ⟨ρ, hρ⟩ => hnone ρ hρ⟩

/-- Reduction keeps the acceptance condition and the accepting runs from the
    initial node, whatever graph is reduced. -/
theorem reduce_preserves_runs (h : g.Reached) :
    g.reduce.graph.acceptance = g.acceptance
      ∧ ∀ ρ, g.reduce.graph.AcceptingFrom 0 ρ ↔ g.AcceptingFrom 0 ρ :=
  ⟨h.linked.reduce_accepting.1, h.linked.reduce_accepting.2.1⟩

/-- An accepting node with an edge to itself and one to a node without edges. -/
def loopAndDeadEnd : Graph String where
  acceptance := {}
  nodes := #[some ⟨{ marks := .full 1 }, some 0⟩, some ⟨{}, none⟩]
  edges := #[some ⟨0, 0, {}, "-", {}, none, some 1⟩, some ⟨0, 1, {}, "-", {}, some 0, none⟩]

/-- The run that stays at the node. -/
theorem reduce_preserves_runs_loop :
    loopAndDeadEnd.reduce.graph.AcceptingFrom 0 fun _ => 0 := by
  have hreached : Reached loopAndDeadEnd := by
    refine .addEdge (g := ⟨{}, #[some ⟨{ marks := .full 1 }, some 0⟩, some ⟨{}, none⟩],
      #[some ⟨0, 0, {}, "-", {}, none, none⟩]⟩) ?_ (rfl : Graph.addEdge? _ 0 1 {} "-" {} = _)
    refine .addEdge (g := ⟨{}, #[some ⟨{ marks := .full 1 }, none⟩, some ⟨{}, none⟩], #[]⟩) ?_
      (rfl : Graph.addEdge? _ 0 0 {} "-" {} = _)
    exact .addNode (.addNode (.start {}) { marks := .full 1 }) {}
  have hrun : loopAndDeadEnd.AcceptingFrom 0 fun _ => 0 := by
    refine ⟨⟨rfl, fun n => ⟨_, rfl⟩, fun n => rfl⟩, fun k hk n => ⟨n, le_refl n, ?_⟩⟩
    obtain rfl : k = 0 := Nat.lt_one_iff.1 hk
    exact ⟨_, _, rfl, rfl, MarkSet.mem_below.2 ⟨Nat.zero_lt_one, rfl⟩⟩
  exact ((reduce_preserves_runs hreached).2 _).2 hrun

end Graph
end LinearTime
