/-
  LinearTime.Proofs.Satisfiability — satisfiability by translation and reduction.

  A formula has a model just if its automaton accepts a lasso word, its
  automaton accepts one just if the graph of the automaton has an accepting run,
  and reduction leaves nothing of a graph just if it has no accepting run.

  Main results:
    * `Automaton.Recognizes.isEmpty_reduce_iff` — reduction empties the graph of
      an automaton just if the formula it recognizes has no model.
    * `Construction.reduced_isEmpty_iff_unsatisfiable` — so with the built-in
      rules reduction decides whether a formula has a model.
-/

import LinearTime.Proofs.AutomatonGraph
import LinearTime.Proofs.Translation

namespace LinearTime

/-! ## §1. Recognized formulas and reduced graphs -/

section Recognized

variable {α : Type} [BEq α] {a : Automaton α} {f : Formula α}

/-- The graph has an accepting run just if the formula has a model. -/
theorem Automaton.Recognizes.exists_graph_run_iff_model (h : a.Recognizes f) (hf : f.Coherent) :
    (∃ ρ, a.toGraph.AcceptingFrom 0 ρ) ↔ ∃ w : Lasso α, w.satisfies f = true := by
  rw [Automaton.exists_graph_run_iff h.wellFormed h.ids h.letters]
  apply exists_congr
  intro w
  rw [h.accepts_eq hf]

/-- Reduction leaves nothing of the graph just if the formula has no model. -/
theorem Automaton.Recognizes.isEmpty_reduce_iff (h : a.Recognizes f) (hf : f.Coherent) :
    a.toGraph.reduce.graph.isEmpty = true ↔ ∀ w : Lasso α, w.satisfies f = false := by
  have hdraws := Automaton.toGraph_draws h.wellFormed h.ids
  have hsets : 0 < a.toGraph.acceptance.sets := by
    rw [hdraws.acceptance]
    exact h.sets_pos
  obtain ⟨-, -, hempty⟩ := hdraws.linked.reduce_accepting
  rw [hempty hsets, h.exists_graph_run_iff_model hf, not_exists]
  apply forall_congr'
  intro w
  rw [Bool.not_eq_true]

end Recognized

/-! ## §2. Deciding satisfiability -/

namespace Construction

variable {α : Type} [BEq α] [EquivBEq α] {s : Session α} {f : Formula α}

omit [EquivBEq α] in
theorem graph_eq_map (c : Construction) (f : Formula α) (s : Session α) :
    (c.graph f s).1 = (c.automaton f s).1.map Automaton.toGraph := by
  unfold graph
  -- the automaton is not to be evaluated
  generalize c.automaton f = job
  rfl

/-- With valid rules reduction empties the graph just if the formula has no model. -/
theorem exists_graph {c : Construction} (hvalid : ∀ rule ∈ c.rules.rules, rule.Valid α)
    (hs : s.Canonical) (hf : f ∈ s.interned) :
    ∃ g, (c.graph f s).1 = .ok g
      ∧ (g.reduce.graph.isEmpty = true ↔ ∀ w : Lasso α, w.satisfies f = false) := by
  obtain ⟨a, ha, hrecognizes⟩ := exists_automaton hvalid hs hf
  rw [graph_eq_map, ha]
  exact ⟨a.toGraph, rfl, hrecognizes.isEmpty_reduce_iff (hs.coherent hf)⟩

/-- For every formula of a session that comes about, simplified with the built-in
    rules or not, and for both ways of merging nodes, there is a graph, and
    reduction empties it just if the formula has no model. -/
theorem reduced_isEmpty_iff_unsatisfiable (hs : s.Reached) (hf : f ∈ s.interned) (stamp : Nat)
    (merge : Merge) (simplify : Bool) :
    ∃ g, ((builtIn stamp merge simplify).graph f s).1 = .ok g
      ∧ (g.reduce.graph.isEmpty = true ↔ ∀ w : Lasso α, w.satisfies f = false) :=
  exists_graph (builtIn_valid stamp merge simplify) hs.canonical hf

/-- Reduction leaves nothing of the graph of `p /\ ~p`. -/
theorem reduced_isEmpty_iff_unsatisfiable_contradiction :
    ∃ g, ((builtIn 0 .nextAndPending false).graph
        (.binary 2 .conj (.prop 0 "p") (.negProp 1 0 "p"))
        { interned := [.binary 2 .conj (.prop 0 "p") (.negProp 1 0 "p"), .negProp 1 0 "p",
            .prop 0 "p"],
          nextId := 3 }).1 = .ok g
      ∧ g.reduce.graph.isEmpty = true := by
  -- The session is built call by call.
  have hp : Session.Reached (⟨[.prop 0 "p"], 1, []⟩ : Session String) :=
    .call (.prop "p") .start fun f hf => absurd hf List.not_mem_nil
  have hnot : Session.Reached (⟨[.negProp 1 0 "p", .prop 0 "p"], 2, []⟩ : Session String) :=
    .call (.not (.prop 0 "p")) hp fun f hf => hf
  have hconj : Session.Reached (⟨[.binary 2 .conj (.prop 0 "p") (.negProp 1 0 "p"),
      .negProp 1 0 "p", .prop 0 "p"], 3, []⟩ : Session String) :=
    .call (.binary .conj (.prop 0 "p") (.negProp 1 0 "p")) hnot fun f hf => by
      rcases List.mem_pair.1 hf with rfl | rfl
      · exact List.mem_cons_of_mem _ List.mem_cons_self
      · exact List.mem_cons_self
  obtain ⟨g, hg, hempty⟩ :=
    reduced_isEmpty_iff_unsatisfiable hconj List.mem_cons_self 0 .nextAndPending false
  refine ⟨g, hg, hempty.2 fun w => ?_⟩
  rw [Bool.eq_false_iff, Ne, w.satisfies_iff (hconj.canonical.coherent List.mem_cons_self)]
  intro hholds
  exact hholds.2 hholds.1

end Construction
end LinearTime
