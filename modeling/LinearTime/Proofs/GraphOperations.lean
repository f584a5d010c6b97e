/-
  LinearTime.Proofs.GraphOperations — adding and removing keep a graph linked.

  An edge that is added comes last, so it only concerns the greatest edge from
  its source, or the source itself.  An edge `i` that is removed only concerns
  what points to it, that is, the edges directly before and behind it:

      next j  =  next i   if  next j = i,  that is,  prev i = j
      prev j  =  prev i   if  prev j = i,  that is,  next i = j

  and nothing else changes (`Least.without`, `Greatest.without`).

  Main results:
    * `addEdge?_eq_some`, `bareEdge?_removeEdge`, `removeNode?_eq_some` — what the
      operations change.
    * `Linked.addEdge?`, `Linked.removeEdge`, `Linked.removeNode?` — they keep the
      graph linked.
    * `Reached.linked` — all graphs that come about are linked.
-/

import LinearTime.Proofs.GraphLinks

namespace LinearTime
namespace Graph

variable {α : Type} {g : Graph α} {i j v : Nat} {e : Edge α}

/-! ## §1. Adding -/

/-- A new node has no edges, so adding one keeps the lists linked. -/
theorem Linked.addNode (h : g.Linked) (a : Attributes) : (g.addNode a).Linked := by
  have hnew (w : Nat) (hw : g.hasNode w = true) : (g.addNode a).hasNode w = true := by
    obtain ⟨n, hn⟩ := hasNode_iff.1 hw
    have hne : w ≠ g.nodes.size := (node?_lt hn).ne
    refine hasNode_iff.2 ⟨n, ?_⟩
    rw [node?_addNode, if_neg hne]
    exact hn
  refine ⟨fun i e he => hnew _ (h.source i e he), fun i e he => hnew _ (h.target i e he), ?_,
    h.next, h.prev⟩
  intro w n hn
  rw [node?_addNode] at hn
  split at hn
  next hw =>
    -- no edge leaves a node that was not there before
    obtain rfl := Option.some.inj hn
    rintro j ⟨f, hf, rfl⟩
    obtain ⟨m, hm⟩ := hasNode_iff.1 (h.source j f hf)
    have := node?_lt hm
    omega
  next => exact h.first w n hn

/-- What adding an edge changes, link by link. -/
theorem addEdge?_eq_some {source target : Nat} {guard : Guard α} {action : String}
    {a : Attributes} {g' : Graph α} (hg' : g.addEdge? source target guard action a = some g') :
    g.hasNode source = true ∧ g.hasNode target = true ∧ ∃ last,
      last = (g.edgesFrom source).getLast?.map (·.1)
        ∧ (∀ j, g'.edge? j = if j = g.edges.size
            then some ⟨source, target, guard, action, a, last, none⟩
            else (g.edge? j).map fun e =>
              { e with next := if last = some j then some g.edges.size else e.next })
        ∧ (∀ w, g'.node? w = (g.node? w).map fun n =>
            { n with first := if last = none ∧ w = source then some g.edges.size else n.first })
        ∧ g'.acceptance = g.acceptance ∧ g'.nodes.size = g.nodes.size
        ∧ g'.edges.size = g.edges.size + 1 := by
  unfold addEdge? at hg'
  split at hg'
  next hends =>
    obtain ⟨hs, ht⟩ := Bool.and_eq_true_iff.1 hends
    obtain rfl := Option.some.inj hg'
    refine ⟨hs, ht, _, rfl, ?_⟩
    -- The new edge is linked from the node if it is its first, and from the last otherwise.
    cases (g.edgesFrom source).getLast?.map (·.1) with
    | none =>
      refine ⟨fun j => ?_, fun w => ?_, rfl, by simp [modifyNode], by simp [modifyNode]⟩
      · rw [edge?_push, edge?_modifyNode]
        show (if j = g.edges.size then _ else _) = _
        split
        next => rfl
        next => cases g.edge? j <;> simp
      · show (g.modifyNode source _).node? w = _
        rw [node?_modifyNode]
        by_cases hw : source = w
        · simp [hw]
        · cases g.node? w <;> simp [hw, Ne.symm hw]
    | some k =>
      have hsize : (g.modifyEdge k fun e => { e with next := some g.edges.size }).edges.size
          = g.edges.size := by simp [modifyEdge]
      refine ⟨fun j => ?_, fun w => ?_, rfl, rfl, by simp [modifyEdge]⟩
      · rw [edge?_push, edge?_modifyEdge, hsize]
        split
        next => rfl
        next =>
          by_cases hk : k = j
          · simp [hk]
          · cases g.edge? j <;> simp [hk]
      · show g.node? w = _
        cases g.node? w <;> simp
  next => cases hg'

section AddEdge

variable {source target : Nat} {guard : Guard α} {action : String} {a : Attributes}
  {g' : Graph α}

/-- Adding an edge adds and removes no node. -/
theorem hasNode_addEdge? (hg' : g.addEdge? source target guard action a = some g') (w : Nat) :
    g'.hasNode w = g.hasNode w := by
  obtain ⟨-, -, last, -, -, hnode, -⟩ := addEdge?_eq_some hg'
  unfold hasNode
  rw [hnode, Option.isSome_map]

/-- The edges leaving a node after an addition: those before, and the new one at its source. -/
theorem leaves_addEdge? (hg' : g.addEdge? source target guard action a = some g') :
    g'.Leaves v j ↔ g.Leaves v j ∨ (j = g.edges.size ∧ v = source) := by
  obtain ⟨-, -, last, -, hedge, -⟩ := addEdge?_eq_some hg'
  unfold Leaves
  rw [hedge]
  by_cases hj : j = g.edges.size
  · have hnew : g.edge? j = none := by
      cases hf : g.edge? j with
      | none => rfl
      | some f => exact absurd hj (edge?_lt hf).ne
    simp [hj ▸ hnew, hj, eq_comm]
  · cases g.edge? j <;> simp [hj]

/-- The new edge comes behind all others.  So it is the next of an edge, or the
    first of a node, that has none yet: of the edge that was the last from the
    same source, or of a source that no edge leaves. -/
theorem Linked.addEdge? (h : g.Linked)
    (hg' : g.addEdge? source target guard action a = some g') : g'.Linked := by
  have hleaves (w : Nat) : g'.Leaves w = fun k => g.Leaves w k ∨ (k = g.edges.size ∧ w = source) :=
    funext fun k => propext (leaves_addEdge? hg')
  have hhas := hasNode_addEdge? hg'
  obtain ⟨hs, ht, last, hlast, hedge, hnode, -⟩ := addEdge?_eq_some hg'
  have hgreatest : Greatest (g.Leaves source) last := hlast ▸ h.greatest_last source
  have hbelow (w k : Nat) (hk : g.Leaves w k) : k < g.edges.size := by
    obtain ⟨f, hf, -⟩ := hk
    exact edge?_lt hf
  have hcases (j : Nat) (f : Edge α) (hf : g'.edge? j = some f) :
      (j = g.edges.size ∧ f = ⟨source, target, guard, action, a, last, none⟩)
        ∨ ∃ f', g.edge? j = some f' ∧ f = { f' with
            next := if last = some j then some g.edges.size else f'.next } := by
    rw [hedge] at hf
    split at hf
    next hj => exact .inl ⟨hj, (Option.some.inj hf).symm⟩
    next =>
      obtain ⟨f', hf', rfl⟩ := Option.map_eq_some_iff.1 hf
      exact .inr ⟨f', hf', rfl⟩
  exact {
    source j f hf := by
      rw [hhas]
      obtain ⟨-, rfl⟩ | ⟨f', hf', rfl⟩ := hcases j f hf
      · exact hs
      · exact h.source j f' hf'
    target j f hf := by
      rw [hhas]
      obtain ⟨-, rfl⟩ | ⟨f', hf', rfl⟩ := hcases j f hf
      · exact ht
      · exact h.target j f' hf'
    first w n hn := by
      rw [hnode] at hn
      obtain ⟨m, hm, rfl⟩ := Option.map_eq_some_iff.1 hn
      have hfirst := h.first w m hm
      rw [hleaves]
      by_cases hw : w = source
      · subst hw
        have hnone : last = none ↔ m.first = none := by
          rw [hgreatest.eq_none_iff, hfirst.eq_none_iff]
        simpa [hnone] using hfirst.or_above (hbelow w)
      · simpa [hw] using hfirst
    next j f hf := by
      rw [hleaves]
      obtain ⟨rfl, rfl⟩ | ⟨f', hf', rfl⟩ := hcases j f hf
      · rintro k ⟨hk | ⟨rfl, -⟩, hlt⟩
        · have := hbelow _ _ hk
          omega
        · omega
      · have hnext := h.next j f' hf'
        have hjlt := edge?_lt hf'
        show Least (fun k => (g.Leaves f'.source k ∨ _) ∧ j < k)
          (if last = some j then some g.edges.size else f'.next)
        by_cases hsource : f'.source = source
        · rw [hsource] at hnext ⊢
          -- behind the last edge comes no other, and only behind that one
          have hnone : last = some j ↔ f'.next = none := by
            rw [hgreatest.eq_some_iff, hnext.eq_none_iff]
            have hj : g.Leaves source j := ⟨f', hf', hsource⟩
            exact ⟨fun hle k hk => absurd (hle.2 k hk.1) (by omega),
              fun hbehind =>
                ⟨hj, fun k hk => by_contra fun hlt => hbehind k ⟨hk, by omega⟩⟩⟩
          rw [if_congr hnone rfl rfl]
          refine (hnext.or_above fun k hk => hbelow _ k hk.1).congr fun k => ?_
          constructor
          · rintro ⟨hk | ⟨hk, -⟩, hlt⟩
            · exact .inl ⟨hk, hlt⟩
            · exact .inr hk
          · rintro (⟨hk, hlt⟩ | rfl)
            · exact ⟨.inl hk, hlt⟩
            · exact ⟨.inr ⟨rfl, rfl⟩, hjlt⟩
        · have hne : last ≠ some j := fun hj =>
            hsource ((hgreatest.eq_some_iff.1 hj).1.source_eq hf')
          rw [if_neg hne]
          simpa [hsource] using hnext
    prev j f hf := by
      rw [hleaves]
      obtain ⟨rfl, rfl⟩ | ⟨f', hf', rfl⟩ := hcases j f hf
      · refine hgreatest.congr fun k => ⟨?_, fun hk => ⟨.inl hk, hbelow _ _ hk⟩⟩
        rintro ⟨hk | ⟨rfl, -⟩, hlt⟩
        · exact hk
        · omega
      · have hjlt := edge?_lt hf'
        refine (h.prev j f' hf').congr fun k => ⟨?_, fun hk => ⟨.inl hk.1, hk.2⟩⟩
        rintro ⟨hk | ⟨rfl, -⟩, hlt⟩
        · exact ⟨hk, hlt⟩
        · omega }

end AddEdge

/-! ## §2. Removing -/

/-- What removing an edge changes, link by link. -/
theorem edge?_removeEdge (he : g.edge? i = some e) (j : Nat) :
    (g.removeEdge i).edge? j = if i = j then none else (g.edge? j).map fun f =>
      { f with next := if e.prev = some j then e.next else f.next,
               prev := if e.next = some j then e.prev else f.prev } := by
  unfold removeEdge
  simp only [he]
  -- Four cases: the edge has a previous one or not, and a next one or not.
  cases hp : e.prev with
  | none =>
    cases hn : e.next with
    | none =>
      simp only [edge?_modifyNode, edge?_cut]
      split
      · rfl
      · simp
    | some n =>
      simp only [edge?_modifyEdge, edge?_modifyNode, edge?_cut]
      by_cases hij : i = j
      · simp [hij]
      · by_cases hnj : n = j
        · simp [hij, hnj]
        · simp [hij, hnj]
  | some p =>
    cases hn : e.next with
    | none =>
      simp only [edge?_modifyEdge, edge?_cut]
      by_cases hij : i = j
      · simp [hij]
      · by_cases hpj : p = j
        · simp [hij, hpj]
        · simp [hij, hpj]
    | some n =>
      simp only [edge?_modifyEdge, edge?_cut]
      by_cases hij : i = j
      · simp [hij]
      · by_cases hpj : p = j <;> by_cases hnj : n = j
        · simp [hij, hpj, hnj, Option.map_map, Function.comp_def]
        · simp [hij, hpj, hnj]
        · simp [hij, hpj, hnj]
        · simp [hij, hpj, hnj]

/-- Removing an edge changes no node but the source of a first edge, which then starts with the
    next. -/
theorem node?_removeEdge (he : g.edge? i = some e) (v : Nat) :
    (g.removeEdge i).node? v = (g.node? v).map fun n =>
      { n with first := if e.prev = none ∧ v = e.source then e.next else n.first } := by
  have hcut (w : Nat) : ({ g with edges := g.edges.setIfInBounds i none } : Graph α).node? w
      = g.node? w := rfl
  unfold removeEdge
  simp only [he]
  cases hp : e.prev with
  | none =>
    -- Only the first edge of a node is linked from it.
    have hnode : (({ g with edges := g.edges.setIfInBounds i none } : Graph α).modifyNode e.source
        fun n => { n with first := e.next }).node? v
          = (g.node? v).map fun n =>
              { n with first := if v = e.source then e.next else n.first } := by
      rw [node?_modifyNode, hcut]
      by_cases hv : e.source = v
      · simp [hv]
      · cases g.node? v <;> simp [hv, Ne.symm hv]
    cases hn : e.next with
    | none =>
      rw [hn] at hnode
      simpa using hnode
    | some n =>
      rw [hn] at hnode
      simpa [node?_modifyEdge] using hnode
  | some p =>
    cases hn : e.next <;> simp [node?_modifyEdge, hcut]

/-- Removing an edge that is not there changes nothing. -/
theorem removeEdge_none (h : g.edge? i = none) : g.removeEdge i = g := by
  unfold removeEdge
  simp only [h]

theorem acceptance_removeEdge (g : Graph α) (i : Nat) :
    (g.removeEdge i).acceptance = g.acceptance := by
  unfold removeEdge
  split
  next => rfl
  next e he => cases e.prev <;> cases e.next <;> rfl

theorem attributes?_removeEdge (g : Graph α) (i v : Nat) :
    (g.removeEdge i).attributes? v = g.attributes? v := by
  cases he : g.edge? i with
  | none => rw [removeEdge_none he]
  | some e =>
    unfold attributes?
    rw [node?_removeEdge he, Option.map_map]
    rfl

/-- Removing an edge keeps source, target, guard and marks of every other edge. -/
theorem bareEdge?_removeEdge (g : Graph α) (i j : Nat) :
    (g.removeEdge i).bareEdge? j = if i = j then none else g.bareEdge? j := by
  -- removing what is not there leaves the graph
  cases he : g.edge? i with
  | none =>
    rw [removeEdge_none he]
    split
    next hij =>
      subst hij
      exact bareEdge?_eq_none he
    next => rfl
  | some e =>
    unfold bareEdge?
    rw [edge?_removeEdge he]
    split
    · rfl
    · rw [Option.map_map]
      rfl

theorem hasNode_eq_isSome (g : Graph α) (v : Nat) : g.hasNode v = (g.attributes? v).isSome := by
  unfold hasNode attributes?
  rw [Option.isSome_map]

/-- Removing an edge removes no node. -/
theorem hasNode_removeEdge (g : Graph α) (i v : Nat) :
    (g.removeEdge i).hasNode v = g.hasNode v := by
  rw [hasNode_eq_isSome, hasNode_eq_isSome, attributes?_removeEdge]

/-- The edges leaving a node after a removal: those before, less the removed one. -/
theorem leaves_removeEdge : (g.removeEdge i).Leaves v j ↔ g.Leaves v j ∧ j ≠ i := by
  rw [leaves_iff_bareEdge?, leaves_iff_bareEdge?, bareEdge?_removeEdge]
  by_cases hij : i = j
  · simp [hij]
  · simp [hij, Ne.symm hij]

/-- Whatever pointed to the removed edge points to the one behind it, or before
    it, and all other links stay. -/
theorem Linked.removeEdge (h : g.Linked) (i : Nat) : (g.removeEdge i).Linked := by
  cases he : g.edge? i with
  | none =>
    rw [removeEdge_none he]
    exact h
  | some e =>
    have hleaves (v : Nat) : (g.removeEdge i).Leaves v = fun k => g.Leaves v k ∧ k ≠ i :=
      funext fun k => propext leaves_removeEdge
    -- every other edge is an old one with the links next to `i` joined
    have hold (j : Nat) (f : Edge α) (hf : (g.removeEdge i).edge? j = some f) :
        ∃ f', g.edge? j = some f' ∧ f.source = f'.source ∧ f.target = f'.target
          ∧ f.next = (if e.prev = some j then e.next else f'.next)
          ∧ f.prev = (if e.next = some j then e.prev else f'.prev) := by
      rw [edge?_removeEdge he] at hf
      split at hf
      · cases hf
      · obtain ⟨f', hf', rfl⟩ := Option.map_eq_some_iff.1 hf
        exact ⟨f', hf', rfl, rfl, rfl, rfl⟩
    exact {
      source j f hf := by
        obtain ⟨f', hf', hs, -⟩ := hold j f hf
        rw [hasNode_removeEdge, hs]
        exact h.source j f' hf'
      target j f hf := by
        obtain ⟨f', hf', -, ht, -⟩ := hold j f hf
        rw [hasNode_removeEdge, ht]
        exact h.target j f' hf'
      first v n hn := by
        rw [node?_removeEdge he] at hn
        obtain ⟨m, hm, rfl⟩ := Option.map_eq_some_iff.1 hn
        have hfirst := h.first v m hm
        rw [hleaves]
        show Least _ (if e.prev = none ∧ v = e.source then e.next else m.first)
        rw [if_congr (h.first_iff_prev hm he).symm rfl rfl]
        refine hfirst.without fun hi => ?_
        rw [← (hfirst.eq_some_iff.1 hi).1.source_eq he]
        exact h.next i e he
      next j f hf := by
        obtain ⟨f', hf', hs, -, hn, -⟩ := hold j f hf
        have hnext := h.next j f' hf'
        rw [hs, hn, hleaves, if_congr (h.next_iff_prev hf' he).symm rfl rfl]
        refine (hnext.without fun hi => ?_).congr fun k => and_right_comm
        obtain ⟨⟨hleaves, hji⟩, -⟩ := hnext.eq_some_iff.1 hi
        rw [← hleaves.source_eq he]
        exact (h.next i e he).congr fun k =>
          ⟨fun hk => ⟨hk.1.1, hk.2⟩, fun hk => ⟨⟨hk.1, hji.trans hk.2⟩, hk.2⟩⟩
      prev j f hf := by
        obtain ⟨f', hf', hs, -, -, hp⟩ := hold j f hf
        have hprev := h.prev j f' hf'
        rw [hs, hp, hleaves, if_congr (h.next_iff_prev he hf') rfl rfl]
        refine (hprev.without fun hi => ?_).congr fun k => and_right_comm
        obtain ⟨⟨hleaves, hij⟩, -⟩ := hprev.eq_some_iff.1 hi
        rw [← hleaves.source_eq he]
        exact (h.prev i e he).congr fun k =>
          ⟨fun hk => ⟨hk.1.1, hk.2⟩, fun hk => ⟨⟨hk.1, hk.2.trans hij⟩, hk.2⟩⟩ }

/-- Removing any number of edges keeps the lists linked. -/
theorem Linked.removeEdges (h : g.Linked) (is : List Nat) : (is.foldl Graph.removeEdge g).Linked := by
  induction is generalizing g with
  | nil => exact h
  | cons i is ih => exact ih (h.removeEdge i)

theorem attributes?_removeEdges (g : Graph α) (is : List Nat) (v : Nat) :
    (is.foldl removeEdge g).attributes? v = g.attributes? v := by
  induction is generalizing g with
  | nil => rfl
  | cons i is ih => rw [List.foldl_cons, ih, attributes?_removeEdge]

theorem acceptance_removeEdges (g : Graph α) (is : List Nat) :
    (is.foldl removeEdge g).acceptance = g.acceptance := by
  induction is generalizing g with
  | nil => rfl
  | cons i is ih => rw [List.foldl_cons, ih, acceptance_removeEdge]

/-- Removing several edges keeps every other edge but for its links. -/
theorem bareEdge?_removeEdges (g : Graph α) (is : List Nat) (j : Nat) :
    (is.foldl removeEdge g).bareEdge? j = if j ∈ is then none else g.bareEdge? j := by
  induction is generalizing g with
  | nil => simp
  | cons i is ih =>
    rw [List.foldl_cons, ih, bareEdge?_removeEdge]
    by_cases hj : j ∈ is
    · simp [hj]
    · by_cases hij : i = j
      · simp [hij]
      · simp [hj, hij, Ne.symm hij]

/-- The edges removed with a node are those that leave it and those that enter it. -/
theorem mem_incident : i ∈ g.incident v ↔
    ∃ e, g.bareEdge? i = some e ∧ (e.source = v ∨ e.target = v) := by
  unfold incident bareEdge?
  rw [List.mem_filter, mem_edgeIndices]
  cases g.edge? i <;> simp [Edge.bare]

/-- What removing a node leaves. -/
theorem removeNode?_eq_some {n : Nat} {g' : Graph α} (hg' : g.removeNode? v = some (n, g')) :
    g.hasNode v = true ∧ n = (g.incident v).length
      ∧ (∀ j, g'.bareEdge? j = if j ∈ g.incident v then none else g.bareEdge? j)
      ∧ (∀ w, g'.attributes? w = if v = w then none else g.attributes? w)
      ∧ g'.acceptance = g.acceptance := by
  unfold removeNode? at hg'
  split at hg'
  next hv =>
    obtain ⟨rfl, rfl⟩ := Prod.mk.inj (Option.some.inj hg')
    refine ⟨hv, rfl, fun j => ?_, fun w => ?_, acceptance_removeEdges g _⟩
    · exact bareEdge?_removeEdges g (g.incident v) j
    · unfold attributes?
      rw [node?_cut]
      split
      · rfl
      · exact attributes?_removeEdges g (g.incident v) w
  next => cases hg'

/-- Only nodes that are not there cannot be removed. -/
theorem attributes?_of_removeNode?_none (h : g.removeNode? v = none) : g.attributes? v = none := by
  unfold removeNode? at h
  split at h
  next => cases h
  next hv =>
    rw [hasNode_eq_isSome] at hv
    simpa using hv

/-- Removing a node with its edges keeps the lists linked. -/
theorem Linked.removeNode? (h : g.Linked) {n : Nat} {g' : Graph α}
    (hg' : g.removeNode? v = some (n, g')) : g'.Linked := by
  unfold Graph.removeNode? at hg'
  split at hg'
  next =>
    obtain ⟨-, rfl⟩ := Prod.mk.inj (Option.some.inj hg')
    have hbare := h.removeEdges (g.incident v)
    have hedges := bareEdge?_removeEdges g (g.incident v)
    revert hbare hedges
    generalize (g.incident v).foldl Graph.removeEdge g = b
    intro hbare hedges
    -- no edge is left at `v`
    have haway (i : Nat) (e : Edge α) (he : b.edge? i = some e) :
        e.source ≠ v ∧ e.target ≠ v := by
      have hi := hedges i
      unfold bareEdge? at hi
      rw [he] at hi
      split at hi
      · cases hi
      next hnot =>
        rw [mem_incident] at hnot
        push Not at hnot
        exact hnot e.bare hi.symm
    have hnode (w : Nat) (hw : b.hasNode w = true) (hne : w ≠ v) :
        ({ b with nodes := b.nodes.setIfInBounds v none } : Graph α).hasNode w = true := by
      unfold hasNode at *
      rw [node?_cut, if_neg (Ne.symm hne)]
      exact hw
    refine ⟨fun i e he => hnode _ (hbare.source i e he) (haway i e he).1,
      fun i e he => hnode _ (hbare.target i e he) (haway i e he).2, fun w m hm => ?_,
      hbare.next, hbare.prev⟩
    rw [node?_cut] at hm
    split at hm
    · cases hm
    · exact hbare.first w m hm
  next => cases hg'

/-- The cleared graph has no edges, so it is linked. -/
theorem linked_clear (g : Graph α) : g.clear.Linked := by
  have hedge (i : Nat) (e : Edge α) : g.clear.edge? i ≠ some e := by
    intro h
    have := edge?_lt h
    simp [clear] at this
  have hnode (v : Nat) (n : Node) : g.clear.node? v ≠ some n := by
    intro h
    have := node?_lt h
    simp [clear] at this
  exact ⟨fun i e he => absurd he (hedge i e), fun i e he => absurd he (hedge i e),
    fun v n hn => absurd hn (hnode v n), fun i e he => absurd he (hedge i e),
    fun i e he => absurd he (hedge i e)⟩

/-! ## §3. All operations -/

/-- The graphs that come about, from one without nodes. -/
inductive Reached : Graph α → Prop
  | start (acceptance : Acceptance) : Reached { acceptance }
  | addNode {g : Graph α} (h : Reached g) (a : Attributes) : Reached (g.addNode a)
  | addEdge {g g' : Graph α} (h : Reached g) {source target : Nat} {guard : Guard α}
    {action : String} {a : Attributes}
    (hg' : g.addEdge? source target guard action a = some g') : Reached g'
  | removeEdge {g : Graph α} (h : Reached g) (i : Nat) : Reached (g.removeEdge i)
  | removeNode {g g' : Graph α} (h : Reached g) {v n : Nat}
    (hg' : g.removeNode? v = some (n, g')) : Reached g'
  | clear {g : Graph α} (h : Reached g) : Reached g.clear
  | nodeAttributes {g : Graph α} (h : Reached g) (v : Nat) (f : Attributes → Attributes) :
    Reached (g.modifyNodeAttributes v f)
  | edgeAttributes {g : Graph α} (h : Reached g) (i : Nat) (f : Attributes → Attributes) :
    Reached (g.modifyEdgeAttributes i f)

/-- All graphs that come about are linked. -/
theorem Reached.linked (h : g.Reached) : g.Linked := by
  induction h with
  | start acceptance => exact linked_clear (α := α) ⟨acceptance, #[], #[]⟩
  | addNode _ a ih => exact ih.addNode a
  | addEdge _ hg' ih => exact ih.addEdge? hg'
  | removeEdge _ i ih => exact ih.removeEdge i
  | removeNode _ hg' ih => exact ih.removeNode? hg'
  | clear _ _ => exact linked_clear _
  | nodeAttributes _ v f ih => exact ih.modifyNodeAttributes v f
  | edgeAttributes _ i f ih => exact ih.modifyEdgeAttributes i f

end Graph
end LinearTime
