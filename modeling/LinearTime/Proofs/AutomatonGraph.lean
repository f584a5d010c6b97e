/-
  LinearTime.Proofs.AutomatonGraph — the graph of an automaton and its runs.

  The graph of an automaton has a node for every state and an edge for every
  transition, with the guard and the marks of the transition.  So its accepting
  runs are those of the automaton, whatever letters enable the guards on the
  way.  If every guard has a letter, a run that goes round in a circle spells a
  lasso word.

  Main results:
    * `Automaton.toGraph_draws` — nodes are states, edges are transitions.
    * `Automaton.accepting_of_graph`, `graph_of_accepting` — runs of the one and
      runs of the other.
    * `Automaton.exists_graph_run_iff` — the graph has an accepting run if the
      automaton accepts a lasso word.
-/

import LinearTime.Proofs.AcceptedWords
import LinearTime.Proofs.ReducedRuns

namespace LinearTime

variable {α : Type}

/-! ## §1. Nodes are states, edges are transitions -/

namespace Automaton

/-- All transitions, each with the state it leaves. -/
def departures (a : Automaton α) : List (Nat × Transition α) :=
  a.states.flatMap fun q => q.transitions.map fun t => (q.id, t)

/-- The edge goes the way of the transition, with its guard and its marks. -/
structure Follows (e : Graph.Edge α) (q : Nat) (t : Transition α) : Prop where
  source : e.source = q
  target : e.target = t.target
  guard : e.guard = t.guard
  marks : e.attributes.marks = t.accepting

/-- The graph has `n` nodes, and its edges are the listed transitions. -/
structure Draws (n : Nat) (acceptance : Acceptance) (links : List (Nat × Transition α))
    (g : Graph α) : Prop where
  linked : g.Linked
  acceptance : g.acceptance = acceptance
  size : g.nodes.size = n
  node : ∀ v < n, g.hasNode v = true
  sound : ∀ i e, g.edge? i = some e → ∃ q t, (q, t) ∈ links ∧ Follows e q t
  complete : ∀ q t, (q, t) ∈ links → ∃ i e, g.edge? i = some e ∧ Follows e q t

variable {n : Nat} {acceptance : Acceptance} {links : List (Nat × Transition α)} {g : Graph α}

theorem Draws.addNode (h : Draws n acceptance [] g) (a : Attributes) :
    Draws (n + 1) acceptance [] (g.addNode a) := by
  refine ⟨h.linked.addNode a, h.acceptance, ?_, ?_, h.sound, h.complete⟩
  · show (g.nodes.push _).size = n + 1
    rw [Array.size_push, h.size]
  · intro v hv
    rw [Graph.hasNode_iff, Graph.node?_addNode]
    by_cases hlast : v = g.nodes.size
    · exact ⟨_, if_pos hlast⟩
    · obtain ⟨m, hm⟩ := Graph.hasNode_iff.1 (h.node v (by rw [h.size] at hlast; omega))
      exact ⟨m, (if_neg hlast).trans hm⟩

/-- Adding an edge between nodes that are there. -/
theorem Draws.addEdge (h : Draws n acceptance links g) {q : Nat} {t : Transition α} (hq : q < n)
    (ht : t.target < n) : Draws n acceptance (links ++ [(q, t)])
      ((g.addEdge? q t.target t.guard "-" { marks := t.accepting }).getD g) := by
  -- Both ends are nodes, so the edge is added.
  obtain ⟨g', hg'⟩ : ∃ g', g.addEdge? q t.target t.guard "-" { marks := t.accepting } = some g' := by
    unfold Graph.addEdge?
    rw [h.node q hq, h.node t.target ht]
    exact ⟨_, rfl⟩
  rw [hg', Option.getD_some]
  obtain ⟨-, -, last, -, hedge, hnode, hacceptance, hsize, -⟩ := Graph.addEdge?_eq_some hg'
  refine ⟨h.linked.addEdge? hg', hacceptance.trans h.acceptance, hsize.trans h.size, ?_, ?_, ?_⟩
  · intro v hv
    obtain ⟨m, hm⟩ := Graph.hasNode_iff.1 (h.node v hv)
    rw [Graph.hasNode_iff, hnode, hm]
    exact ⟨_, rfl⟩
  · intro i e he
    rw [hedge] at he
    split at he
    · rw [← Option.some.inj he]
      exact ⟨q, t, List.mem_append_right _ (List.mem_singleton.2 rfl), rfl, rfl, rfl, rfl⟩
    · obtain ⟨e', he', rfl⟩ := Option.map_eq_some_iff.1 he
      obtain ⟨q', t', hmem, hfollows⟩ := h.sound i e' he'
      exact ⟨q', t', List.mem_append_left _ hmem, hfollows.source, hfollows.target,
        hfollows.guard, hfollows.marks⟩
  · intro q' t' hmem
    rcases List.mem_append.1 hmem with hmem | hmem
    · obtain ⟨i, e, he, hfollows⟩ := h.complete q' t' hmem
      have hne : i ≠ g.edges.size := (Graph.edge?_lt he).ne
      have hi := (hedge i).trans (if_neg hne)
      rw [he, Option.map_some] at hi
      exact ⟨i, _, hi, ⟨hfollows.source, hfollows.target, hfollows.guard, hfollows.marks⟩⟩
    · obtain ⟨rfl, rfl⟩ := Prod.mk.inj (List.mem_singleton.1 hmem)
      exact ⟨g.edges.size, _, (hedge _).trans (if_pos rfl), rfl, rfl, rfl, rfl⟩

theorem draws_nodes (states : List (State α)) : ∀ {n : Nat} {g : Graph α},
    Draws n acceptance [] g →
      Draws (n + states.length) acceptance []
        (states.foldl (fun g q => g.addNode { label := some ("S" ++ q.id.repr) }) g) := by
  induction states with
  | nil => exact fun h => h
  | cons q states ih =>
    intro n g h
    rw [List.foldl_cons, List.length_cons, ← Nat.add_assoc, Nat.add_right_comm]
    exact ih (h.addNode _)

theorem draws_edges (rest : List (Nat × Transition α)) : ∀ {links : List (Nat × Transition α)}
    {g : Graph α}, (∀ q t, (q, t) ∈ rest → q < n ∧ t.target < n) → Draws n acceptance links g →
      Draws n acceptance (links ++ rest) (rest.foldl (fun g link =>
        (g.addEdge? link.1 link.2.target link.2.guard "-"
          { marks := link.2.accepting }).getD g) g) := by
  induction rest with
  | nil =>
    intro links g _ h
    rw [List.append_nil]
    exact h
  | cons link rest ih =>
    intro links g hrest h
    obtain ⟨hq, ht⟩ := hrest link.1 link.2 List.mem_cons_self
    rw [List.foldl_cons, List.append_cons]
    exact ih (fun q t hmem => hrest q t (List.mem_cons_of_mem _ hmem)) (h.addEdge hq ht)

/-- States are numbered by their places. -/
theorem mem_departures {a : Automaton α} (hids : a.states.map (·.id) = List.range a.states.length)
    {q : Nat} {t : Transition α} : (q, t) ∈ a.departures ↔ t ∈ a.transitionsOf q := by
  -- States are listed by their numbers, so a state is found at its own.
  have hid (i : Nat) (s : State α) (hs : a.states[i]? = some s) : s.id = i := by
    have hlt := (List.getElem?_eq_some_iff.1 hs).1
    have hmap : (a.states.map (·.id))[i]? = some s.id := by
      rw [List.getElem?_map, hs]
      rfl
    rw [hids, List.getElem?_range hlt] at hmap
    exact (Option.some.inj hmap).symm
  unfold departures transitionsOf
  rw [List.mem_flatMap]
  constructor
  · rintro ⟨s, hs, hmem⟩
    obtain ⟨t', ht', heq⟩ := List.mem_map.1 hmem
    obtain ⟨rfl, rfl⟩ := Prod.mk.inj heq
    obtain ⟨i, hi⟩ := List.mem_iff_getElem?.1 hs
    rw [hid i s hi, hi]
    exact ht'
  · intro ht
    cases hs : a.states[q]? with
    | none =>
      rw [hs] at ht
      exact absurd ht List.not_mem_nil
    | some s =>
      rw [hs] at ht
      refine ⟨s, List.mem_of_getElem? hs, List.mem_map.2 ⟨t, ht, ?_⟩⟩
      rw [hid q s hs]

/-- The graph of an automaton draws its states and transitions. -/
theorem toGraph_draws {a : Automaton α} (wf : a.WellFormed)
    (hids : a.states.map (·.id) = List.range a.states.length) :
    Draws a.states.length ⟨.generalized a.acceptanceSets, .edges⟩ a.departures a.toGraph := by
  have hempty : Draws 0 ⟨.generalized a.acceptanceSets, .edges⟩ []
      ({ acceptance := ⟨.generalized a.acceptanceSets, .edges⟩ } : Graph α) := by
    refine ⟨Graph.Reached.linked (.start _), rfl, rfl, fun v hv => absurd hv (Nat.not_lt_zero v),
      ?_, fun q t h => absurd h List.not_mem_nil⟩
    intro i e he
    exact absurd (Graph.edge?_lt he) (Nat.not_lt_zero i)
  -- all nodes first, so that every edge finds its ends
  have hnodes := draws_nodes a.states hempty
  rw [Nat.zero_add] at hnodes
  have hedges := draws_edges a.departures (n := a.states.length) ?_ hnodes
  · rw [List.nil_append] at hedges
    unfold toGraph
    unfold departures at hedges ⊢
    rw [List.foldl_flatMap] at hedges
    simp only [List.foldl_map] at hedges
    exact hedges
  · intro q t hmem
    have ht := (mem_departures hids).1 hmem
    exact ⟨transitionsOf_lt ht, wf.target_lt q t ht⟩

/-! ## §2. Runs of the graph are runs of the automaton -/

variable [BEq α] {a : Automaton α}

/-- Letters that enable the guards along an accepting run of the graph make a
    word that is accepted. -/
theorem accepting_of_graph
    (h : Draws a.states.length ⟨.generalized a.acceptanceSets, .edges⟩ a.departures g)
    (hids : a.states.map (·.id) = List.range a.states.length) {ρ : Nat → Nat}
    (hρ : g.AcceptingFrom 0 ρ) {word : Nat → Valuation α}
    (hword : ∀ n e, g.edge? (ρ n) = some e → e.guard.enabled (word n) = true) :
    ∃ q t, a.Accepting word q t := by
  -- Every edge of the run was drawn for a transition.
  choose e he using hρ.run.allowed
  have hlink (n : Nat) := h.sound (ρ n) (e n) (he n)
  choose q t hmem hfollows using hlink
  have hsource (n : Nat) : g.moves.source (ρ n) = q n :=
    (Graph.moves_source (he n)).trans (hfollows n).source
  refine ⟨q, t, ?_, fun n => (mem_departures hids).1 (hmem n), fun n => ?_, fun n => ?_, ?_⟩
  · rw [← hsource, hρ.run.start]
    rfl
  · rw [← (hfollows n).guard]
    exact hword n (e n) (he n)
  · rw [← hsource, hρ.run.next, Graph.moves_target (he n), (hfollows n).target]
  · intro k hk n
    have hsets : k < g.acceptance.sets := by
      rw [h.acceptance]
      exact hk
    obtain ⟨m, hm, hcarries⟩ := hρ.again k hsets n
    unfold Graph.Carries at hcarries
    rw [h.acceptance] at hcarries
    obtain ⟨e', he', hmark⟩ := hcarries
    obtain rfl : e m = e' := Option.some.inj ((he m).symm.trans he')
    refine ⟨m, hm, ?_⟩
    show k ∈ (t m).accepting
    rw [← (hfollows m).marks]
    exact hmark

/-- An accepting run of the automaton is one of its graph. -/
theorem graph_of_accepting
    (h : Draws a.states.length ⟨.generalized a.acceptanceSets, .edges⟩ a.departures g)
    (hids : a.states.map (·.id) = List.range a.states.length) {word : Nat → Valuation α}
    {q : Nat → Nat} {t : Nat → Transition α} (hrun : a.Accepting word q t) :
    ∃ ρ, g.AcceptingFrom 0 ρ := by
  -- Every transition of the run has an edge drawn for it.
  have hedge (n : Nat) := h.complete (q n) (t n) ((mem_departures hids).2 (hrun.taken n))
  choose ρ e he hfollows using hedge
  have hsource (n : Nat) : g.moves.source (ρ n) = q n :=
    (Graph.moves_source (he n)).trans (hfollows n).source
  refine ⟨ρ, ⟨?_, fun n => ⟨e n, he n⟩, fun n => ?_⟩, ?_⟩
  · rw [hsource, hrun.start]
    rfl
  · rw [hsource, hrun.next, Graph.moves_target (he n), (hfollows n).target]
  · intro k hk n
    rw [h.acceptance] at hk
    obtain ⟨m, hm, hmark⟩ := hrun.again k hk n
    refine ⟨m, hm, ?_⟩
    unfold Graph.Carries
    rw [h.acceptance]
    refine ⟨e m, he m, ?_⟩
    rw [(hfollows m).marks]
    exact hmark

/-! ## §3. Runs that go round spell lasso words -/

omit [BEq α] in
/-- The letters along a walk and then round and round. -/
theorem nth_loop {E : Type} (letter : E → Valuation α) {p c : List E} (hc : 0 < c.length)
    (hne : c.map letter ≠ []) (n : Nat) :
    (⟨p.map letter, c.map letter, hne⟩ : Lasso α).nth n = letter (Moves.loop p c hc n) := by
  -- on the path, or on the cycle
  rcases Nat.lt_or_ge n p.length with hlt | hge
  · rw [Moves.loop_of_lt hc hlt]
    have hsize : n < (⟨p.map letter, c.map letter, hne⟩ : Lasso α).size := by
      show n < (p.map letter).length + (c.map letter).length
      rw [List.length_map]
      omega
    unfold Lasso.nth
    rw [if_pos hsize]
    show (p.map letter ++ c.map letter)[n]?.getD [] = letter p[n]
    rw [List.getElem?_append_left (by rwa [List.length_map]), List.getElem?_map,
      List.getElem?_eq_getElem hlt]
    rfl
  · obtain ⟨m, rfl⟩ := Nat.exists_eq_add_of_le hge
    rw [Moves.loop_add hc (Nat.mod_lt m hc) rfl, Lasso.nth_of_spoke_le _ (by simp)]
    show (c.map letter)[(p.length + m - (p.map letter).length) % (c.map letter).length]?.getD [] = _
    rw [List.length_map, List.length_map, Nat.add_sub_cancel_left, List.getElem?_map,
      List.getElem?_eq_getElem (Nat.mod_lt m hc)]
    rfl

/-- If every guard has a letter, the graph has an accepting run just if the
    automaton accepts a lasso word. -/
theorem exists_graph_run_iff (wf : a.WellFormed)
    (hids : a.states.map (·.id) = List.range a.states.length)
    (hletters : ∀ q, ∀ t ∈ a.transitionsOf q, ∃ letter, t.guard.enabled letter = true) :
    (∃ ρ, a.toGraph.AcceptingFrom 0 ρ) ↔ ∃ w : Lasso α, a.accepts w = true := by
  have h := toGraph_draws wf hids
  constructor
  · rintro ⟨ρ, hρ⟩
    -- the class that the run stays in has a round through marks of all sets
    obtain ⟨u, hreaches, hcore⟩ := hρ.exists_core h.linked
    obtain ⟨p, c, hp, hround, hc, hkinds⟩ := hcore.exists_walks hreaches
    have hloop : a.toGraph.AcceptingFrom 0 (Moves.loop p c hc) := by
      refine ⟨Moves.run_loop hp hround hc, fun k hk => ?_⟩
      obtain ⟨i, hi, hcarries⟩ := hkinds k hk
      exact Moves.often_loop hc hi hcarries
    have hletter (i : Nat) : ∃ letter : Valuation α,
        ∀ e, a.toGraph.edge? i = some e → e.guard.enabled letter = true := by
      cases hi : a.toGraph.edge? i with
      | none => exact ⟨[], fun e he => by cases he⟩
      | some e =>
        obtain ⟨q, t, hmem, hfollows⟩ := h.sound i e hi
        obtain ⟨letter, hletter⟩ := hletters q t ((mem_departures hids).1 hmem)
        refine ⟨letter, fun e' he' => ?_⟩
        rw [← Option.some.inj he', hfollows.guard]
        exact hletter
    choose letter hletter using hletter
    have hne : c.map letter ≠ [] := by
      intro hnil
      rw [List.map_eq_nil_iff.1 hnil] at hc
      exact absurd hc (lt_irrefl 0)
    refine ⟨⟨p.map letter, c.map letter, hne⟩, (accepts_iff wf _).2 ?_⟩
    refine accepting_of_graph h hids hloop fun n e he => ?_
    rw [nth_loop letter hc hne]
    exact hletter _ e he
  · rintro ⟨w, hw⟩
    obtain ⟨q, t, hrun⟩ := (accepts_iff wf w).1 hw
    exact graph_of_accepting h hids hrun

end Automaton
end LinearTime
