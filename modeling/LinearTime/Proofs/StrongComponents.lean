/-
  LinearTime.Proofs.StrongComponents — the components as classes of nodes.

  The components are the classes of nodes that can be reached from each other, and
  every edge between two of them leads to one that is listed earlier.  Where a node
  lives, its home, is the place of its component in the list.

  Main results:
    * `components_classified` — the components are these classes, each listed once,
      in this order.
    * `homes_eq_iff` — two nodes have the same home if they are in the same class.
-/

import LinearTime.Proofs.ComponentSearch

namespace LinearTime
namespace Digraph

variable {g : Digraph} {u v w : Nat}

/-! ## §1. Classes -/

/-- The components are the classes of nodes that can be reached from each other,
    each listed once, and edges between them lead to components listed earlier. -/
structure Classified (g : Digraph) (cs : List (List Nat)) : Prop where
  class_of : ∀ c ∈ cs, ∃ r ∈ g.nodes, ∀ x, x ∈ c ↔ g.Mutual r x
  covers : ∀ v ∈ g.nodes, ∃ c ∈ cs, v ∈ c
  disjoint : cs.Pairwise List.Disjoint
  ordered : cs.Pairwise fun c d => ∀ x ∈ c, ∀ y ∈ d, ¬ g.Edge x y

theorem components_classified (wf : g.WellFormed) : g.Classified g.components := by
  obtain ⟨found, hfound, hlisted, hcovers⟩ := components_listed wf
  rw [hfound]
  refine ⟨fun c hc => hlisted.class_of c (List.mem_reverse.1 hc), fun v hv => ?_, ?_, ?_⟩
  · obtain ⟨c, hc, hvc⟩ := hcovers v hv
    exact ⟨c, List.mem_reverse.2 hc, hvc⟩
  · exact List.pairwise_reverse.2 (hlisted.disjoint.imp List.Disjoint.symm)
  · exact List.pairwise_reverse.2 hlisted.ordered

namespace Classified

variable {cs : List (List Nat)} {c d : List Nat}

theorem mem_nodes (h : g.Classified cs) (wf : g.WellFormed) (hc : c ∈ cs) (hv : v ∈ c) :
    v ∈ g.nodes := by
  obtain ⟨r, hr, hclass⟩ := h.class_of c hc
  exact wf.reaches_mem hr ((hclass v).1 hv).1

/-- Two nodes of one component can be reached from each other. -/
theorem mutual_of_mem (h : g.Classified cs) (hc : c ∈ cs) (hu : u ∈ c) (hv : v ∈ c) : g.Mutual u v := by
  obtain ⟨r, -, hclass⟩ := h.class_of c hc
  exact ((hclass u).1 hu).symm.trans ((hclass v).1 hv)

/-- All of a class is in one component. -/
theorem mem_of_mutual (h : g.Classified cs) (hc : c ∈ cs) (hu : u ∈ c) (huv : g.Mutual u v) :
    v ∈ c := by
  obtain ⟨r, -, hclass⟩ := h.class_of c hc
  exact (hclass v).2 (((hclass u).1 hu).trans huv)

/-- A component, and the place where it is listed, is determined by any of its
    nodes. -/
theorem place_eq (h : g.Classified cs) {i j : Nat} (hc : cs[i]? = some c) (hd : cs[j]? = some d)
    (hvc : v ∈ c) (hvd : v ∈ d) : i = j := by
  obtain ⟨hi, rfl⟩ := List.getElem?_eq_some_iff.1 hc
  obtain ⟨hj, rfl⟩ := List.getElem?_eq_some_iff.1 hd
  have hdisjoint := List.pairwise_iff_getElem.1 h.disjoint
  by_contra hne
  rcases Nat.lt_or_gt_of_ne hne with hlt | hlt
  · exact hdisjoint i j hi hj hlt hvc hvd
  · exact hdisjoint j i hj hi hlt hvd hvc

end Classified

/-! ## §2. Homes -/

/-- The home of a node is the place of the only component that lists it. -/
theorem homes_getElem? {cs : List (List Nat)} {c : List Nat} {i : Nat} (hv : v < g.bound)
    (hc : cs[i]? = some c) (hvc : v ∈ c) (honly : ∀ j d, cs[j]? = some d → v ∈ d → j = i) :
    (g.homes cs)[v]? = some i := by
  -- By induction on the components written: the entry is `i`, or one to come will write it.
  have hall (ps : List (List Nat × Nat)) (table : Array Nat) (hlt : v < table.size)
      (hps : ∀ p ∈ ps, v ∈ p.1 → p.2 = i)
      (hsome : table[v]? = some i ∨ ∃ p ∈ ps, v ∈ p.1) :
      (ps.foldl (fun table p => p.1.foldl (fun table v => table.setIfInBounds v p.2) table)
        table)[v]? = some i := by
    induction ps generalizing table with
    | nil => simpa using hsome
    | cons p ps ih =>
      obtain ⟨d, j⟩ := p
      rw [List.foldl_cons]
      refine ih _ (by rw [foldl_set_size]; exact hlt)
        (fun q hq => hps q (List.mem_cons_of_mem _ hq)) ?_
      by_cases hvd : v ∈ d
      · have hji : j = i := hps (d, j) List.mem_cons_self hvd
        refine .inl ?_
        rw [foldl_set_getElem?, if_pos ⟨hvd, hlt⟩, hji]
      · rcases hsome with htable | ⟨q, hq, hvq⟩
        · refine .inl ?_
          rw [foldl_set_getElem?, if_neg fun h => hvd h.1]
          exact htable
        · rcases List.mem_cons.1 hq with rfl | hq
          · exact absurd hvq hvd
          · exact .inr ⟨q, hq, hvq⟩
  unfold homes
  refine hall _ _ (by simpa using hv) ?_ ?_
  · rintro ⟨d, j⟩ hp hvd
    exact honly j d (List.mk_mem_zipIdx_iff_getElem?.1 hp) hvd
  · exact .inr ⟨(c, i), List.mk_mem_zipIdx_iff_getElem?.2 hc, hvc⟩

theorem Classified.home {cs : List (List Nat)} (h : g.Classified cs) {c : List Nat} {i : Nat}
    (hv : v < g.bound) (hc : cs[i]? = some c) (hvc : v ∈ c) : (g.homes cs)[v]? = some i :=
  homes_getElem? hv hc hvc fun _ _ hd hvd => h.place_eq hd hc hvd hvc

/-- Two nodes have the same home if they can be reached from each other. -/
theorem homes_eq_iff (wf : g.WellFormed) (hu : u ∈ g.nodes) (hv : v ∈ g.nodes) :
    (g.homes g.components)[u]? = (g.homes g.components)[v]? ↔ g.Mutual u v := by
  have h := components_classified wf
  obtain ⟨c, hc, huc⟩ := h.covers u hu
  obtain ⟨d, hd, hvd⟩ := h.covers v hv
  obtain ⟨i, hi⟩ := List.mem_iff_getElem?.1 hc
  obtain ⟨j, hj⟩ := List.mem_iff_getElem?.1 hd
  rw [h.home (wf.node_lt u hu) hi huc, h.home (wf.node_lt v hv) hj hvd]
  -- a component has one place in the list
  constructor
  · intro hij
    obtain rfl := Option.some.inj hij
    rw [hi] at hj
    obtain rfl := Option.some.inj hj
    exact h.mutual_of_mem hc huc hvd
  · intro huv
    rw [h.place_eq hi hj (h.mem_of_mutual hc huc huv) hvd]

end Digraph
end LinearTime
