/-
  LinearTime.Proofs.ComponentSearch — the search for components from start to end.

  If a node is left and its low link is its own number, then no edge leads from the
  nodes down to it on the stack to the nodes below, for it would have been noted.  So
  what they reach is among them or in a component that was complete before, and as
  each of them reaches the node they are its component.

      stack    x₁ … xₖ q │ y₁ …        no edge from the left to the right
               component │ goes on

  Every step follows an edge or leaves a node.  The edges and nodes that are left are
  counted beforehand, so the limit on the number of steps is never met.

  Main results:
    * `Sound.mem_popped_iff` — the nodes that are popped are the component.
    * `Sound.close`, `Sound.step` — what is known is kept by every step.
    * `potential_step`, `run_ends` — every step is one less to take.
    * `components_listed` — the components are complete when the search ends.
-/

import LinearTime.Proofs.LowLinks

namespace LinearTime
namespace Digraph

/-! ## §1. Closing a component -/

/-- Writing one value at several places. -/
theorem foldl_set_getElem? {β : Type} (c : List Nat) (b : β) (table : Array β) {v : Nat} :
    (c.foldl (fun table v => table.setIfInBounds v b) table)[v]?
      = if v ∈ c ∧ v < table.size then some b else table[v]? := by
  induction c generalizing table with
  | nil => simp
  | cons a c ih =>
    rw [List.foldl_cons, ih, Array.size_setIfInBounds, Array.getElem?_setIfInBounds]
    simp only [List.mem_cons]
    by_cases hva : v = a
    · subst hva
      by_cases hlt : v < table.size
      · simp [hlt]
      · simp [hlt]
    · simp [hva, Ne.symm hva]

theorem foldl_set_size {β : Type} (c : List Nat) (b : β) (table : Array β) :
    (c.foldl (fun table v => table.setIfInBounds v b) table).size = table.size := by
  induction c generalizing table with
  | nil => rfl
  | cons a c ih => rw [List.foldl_cons, ih, Array.size_setIfInBounds]

/-- One component more, with edges only to itself and to those found before. -/
theorem Listed.cons {g : Digraph} {c : List Nat} {found : List (List Nat)} (h : g.Listed found)
    (hclass : ∃ r ∈ g.nodes, ∀ x, x ∈ c ↔ g.Mutual r x)
    (hdisjoint : ∀ x ∈ c, ∀ d ∈ found, x ∉ d)
    (hclosed : ∀ x ∈ c, ∀ y, g.Edge x y → y ∈ c ∨ ∃ d ∈ found, y ∈ d) :
    g.Listed (c :: found) where
  class_of := List.forall_mem_cons.2 ⟨hclass, h.class_of⟩
  disjoint := List.pairwise_cons.2 ⟨fun d hd x hx => hdisjoint x hx d hd, h.disjoint⟩
  closed := by
    intro d hd x hx y hxy
    simp only [List.mem_cons, exists_eq_or_imp]
    rcases List.mem_cons.1 hd with rfl | hd
    · exact hclosed x hx y hxy
    · exact .inr (h.closed d hd x hx y hxy)
  -- an edge back would lead to what is already listed
  ordered := by
    refine List.pairwise_cons.2 ⟨fun d hd x hx y hy hxy => ?_, h.ordered⟩
    obtain ⟨e, he, hye⟩ := h.closed d hd x hx y hxy
    exact hdisjoint y hy e he hye

namespace Tarjan

variable {g : Digraph} {s : Tarjan} {q u v x y : Nat} {way : List (Nat × List Nat)}
  {edges : List Nat}

/-- Closing a component takes it off the stack and clears its flags. -/
theorem close_eq (s : Tarjan) (q : Nat) : s.close q =
    { s with
      onStack := (popTo q s.stack).1.foldl (fun flags v => flags.setIfInBounds v false) s.onStack
      stack := (popTo q s.stack).2
      found := (popTo q s.stack).1 :: s.found } := rfl

/-- The stack is cut in two behind the node. -/
theorem popTo_eq {stack : List Nat} (h : v ∈ stack) :
    ∃ above below, stack = above ++ v :: below ∧ popTo v stack = (above ++ [v], below) := by
  induction stack with
  | nil => exact absurd h List.not_mem_nil
  | cons u stack ih =>
    unfold popTo
    by_cases huv : u = v
    · exact ⟨[], stack, by rw [huv, List.nil_append], by rw [if_pos huv, huv, List.nil_append]⟩
    · obtain ⟨above, below, hstack, hpop⟩ :=
        ih ((List.mem_cons.1 h).resolve_left (Ne.symm huv))
      refine ⟨u :: above, below, by rw [hstack, List.cons_append], ?_⟩
      rw [if_neg huv, hpop, List.cons_append]

/-- On a stack that descends, the popped nodes are those that are not less. -/
theorem mem_popTo {rank : Nat → Nat} {stack : List Nat}
    (hdesc : stack.Pairwise fun u v => rank v < rank u) (h : v ∈ stack) :
    (x ∈ (popTo v stack).1 ↔ x ∈ stack ∧ rank v ≤ rank x)
      ∧ (x ∈ (popTo v stack).2 ↔ x ∈ stack ∧ rank x < rank v) := by
  obtain ⟨above, below, hstack, hpop⟩ := popTo_eq h
  rw [hpop, hstack]
  rw [hstack] at hdesc
  obtain ⟨-, hbelow, habove⟩ := List.pairwise_append.1 hdesc
  -- The stack descends, so ranks tell what is above `v` and what is below.
  have hlow : ∀ y ∈ below, rank y < rank v := (List.pairwise_cons.1 hbelow).1
  have hhigh : ∀ y ∈ above, rank v < rank y := fun y hy => habove y hy v List.mem_cons_self
  simp only [List.mem_append, List.mem_cons, List.not_mem_nil, or_false]
  constructor
  · constructor
    · rintro (hx | rfl)
      · exact ⟨.inl hx, (hhigh x hx).le⟩
      · exact ⟨.inr (.inl rfl), le_refl _⟩
    · rintro ⟨hx | rfl | hx, hle⟩
      · exact .inl hx
      · exact .inr rfl
      · have := hlow x hx
        omega
  · constructor
    · intro hx
      exact ⟨.inr (.inr hx), hlow x hx⟩
    · rintro ⟨hx | rfl | hx, hlt⟩
      · have := hhigh x hx
        omega
      · omega
      · exact hx

/-- A node is on the stack if its flag says so. -/
theorem Tidy.flag_iff (h : s.Tidy g) : s.onStack[v]?.getD false = true ↔ v ∈ s.stack := by
  rw [← h.onStack_iff]
  cases s.onStack[v]? with
  | none => simp
  | some b => simp

/-- Closing a component keeps the search tidy. -/
theorem Tidy.close (h : s.Tidy g) (hq : q ∈ s.stack) : (s.close q).Tidy g := by
  have hup (x : Nat) := (mem_popTo (x := x) h.descending hq).1
  have hdown (x : Nat) := (mem_popTo (x := x) h.descending hq).2
  rw [close_eq]
  exact {
    number_size := h.number_size
    low_size := h.low_size
    onStack_size := (foldl_set_size ..).trans h.onStack_size
    onStack_iff := by
      intro x
      rw [foldl_set_getElem?, hdown]
      split
      next hpopped =>
        -- Whoever was popped ranks no lower than `q` and is not among the others.
        refine iff_of_false (by simp) ?_
        rintro ⟨-, hlt⟩
        have := ((hup x).1 hpopped.1).2
        omega
      next hnot =>
        rw [h.onStack_iff]
        refine ⟨fun hx => ⟨hx, ?_⟩, And.left⟩
        by_contra hge
        have hflag := (h.onStack_iff x).2 hx
        exact hnot ⟨(hup x).2 ⟨hx, by omega⟩, (Array.getElem?_eq_some_iff.1 hflag).1⟩
    entered_iff := by
      intro x
      refine (h.entered_iff x).trans ?_
      simp only [List.mem_cons, exists_eq_or_imp, hup, hdown]
      rcases Nat.lt_or_ge (s.rank x) (s.rank q) with hlt | hge
      · simp [hlt, Nat.not_le.2 hlt]
      · simp [hge, Nat.not_lt.2 hge]
    disjoint := by
      intro x hx c hc
      obtain ⟨hx, hlt⟩ := (hdown x).1 hx
      rcases List.mem_cons.1 hc with rfl | hc
      · rw [hup]
        rintro ⟨-, hge⟩
        omega
      · exact h.disjoint x hx c hc
    rank_lt := h.rank_lt
    node := fun x hx => h.node x ((hdown x).1 hx).1
    descending := by
      obtain ⟨above, below, hstack, hpop⟩ := popTo_eq hq
      have hdesc := h.descending
      rw [hstack] at hdesc
      rw [hpop]
      exact (List.pairwise_cons.1 (List.pairwise_append.1 hdesc).2.1).2 }

namespace Sound

/-- When a node is left whose low link is its own number, no edge leads from the nodes
    down to it on the stack to the nodes below. -/
theorem edge_of_popped (h : s.Sound g) (hway : s.way = (q, []) :: way)
    (hlow : s.lowOf q = s.rank q) (hx : x ∈ s.stack) (hqx : s.rank q ≤ s.rank x)
    (hxy : g.Edge x y) :
    (y ∈ s.stack ∧ s.rank q ≤ s.rank y) ∨ ∃ c ∈ s.found, y ∈ c := by
  have hq := mem_onWay hway
  -- all edges of `x` were followed: `x` is not further back on the way
  have hfollowed : s.Followed g x y := by
    refine ⟨hxy, fun edges hmem => ?_⟩
    have hmem' := hmem
    rw [hway] at hmem'
    rcases List.mem_cons.1 hmem' with heq | htail
    · obtain ⟨-, rfl⟩ := Prod.mk.inj heq
      exact List.not_mem_nil
    · have hlt := (h.behind_descending hway).1 x (List.mem_map.2 ⟨_, htail, rfl⟩)
      exact absurd hqx (by omega)
  rcases (h.entered_iff y).1 (h.followed x hx y hfollowed) with hy | hy
  · refine .inl ⟨hy, ?_⟩
    by_contra hlt
    obtain ⟨u, hu, hle, hnoted⟩ := h.noted x hx y hy hfollowed q hq (by omega) hqx
    rcases h.top hway hu with rfl | hless
    · omega
    · omega
  · exact .inr hy

/-- Then these nodes are the component of the node. -/
theorem mem_popped_iff (h : s.Sound g) (hway : s.way = (q, []) :: way)
    (hlow : s.lowOf q = s.rank q) :
    (x ∈ s.stack ∧ s.rank q ≤ s.rank x) ↔ g.Mutual q x := by
  have hq := mem_onWay hway
  have hqs := h.way_stack q hq
  constructor
  · rintro ⟨hx, hqx⟩
    refine ⟨h.ahead q hq x hx hqx, ?_⟩
    obtain ⟨u, hu, -, hxu⟩ := h.back x hx
    refine hxu.trans (h.ahead u hu q hqs ?_)
    rcases h.top hway hu with rfl | hlt
    · exact le_refl _
    · exact hlt.le
  · rintro ⟨hqx, hxq⟩
    -- a walk that gets into a component found before does not come back to `q`
    have hstays : ∀ y z, (∃ c ∈ s.found, y ∈ c) → g.Reaches y z → ∃ c ∈ s.found, z ∈ c := by
      intro y z hy hyz
      induction hyz with
      | refl => exact hy
      | tail _ hedge ih =>
        obtain ⟨c, hc, hmem⟩ := ih
        exact h.listed.closed c hc _ hmem _ hedge
    have hnever (y : Nat) (hyq : g.Reaches y q) : ¬ ∃ c ∈ s.found, y ∈ c := by
      intro hy
      obtain ⟨c, hc, hmem⟩ := hstays y q hy hyq
      exact h.disjoint q hqs c hc hmem
    induction hqx with
    | refl => exact ⟨hqs, le_refl _⟩
    | tail _ hedge ih =>
      obtain ⟨hy, hqy⟩ := ih (.head hedge hxq)
      exact (h.edge_of_popped hway hlow hy hqy hedge).resolve_right (hnever _ hxq)

/-- Leaving a node whose low link is its own number, and closing its component. -/
theorem close (h : s.Sound g) (hway : s.way = (q, []) :: way) (hlow : s.lowOf q = s.rank q) :
    (({ s with way } : Tarjan).close q).Sound g := by
  have hqs := h.way_stack q (mem_onWay hway)
  have hup (x : Nat) := (mem_popTo (x := x) h.descending hqs).1
  have hdown (x : Nat) := (mem_popTo (x := x) h.descending hqs).2
  obtain ⟨hless, hdesc⟩ := h.behind_descending hway
  have hkept (u : Nat) (hu : u ∈ way.map (·.1)) : u ∈ s.onWay := by
    rw [onWay_eq hway]
    exact List.mem_cons_of_mem _ hu
  have hstays (u : Nat) (hu : u ∈ s.onWay) (hlt : s.rank u < s.rank q) : u ∈ way.map (·.1) := by
    rw [onWay_eq hway] at hu
    refine (List.mem_cons.1 hu).resolve_left ?_
    rintro rfl
    exact lt_irrefl _ hlt
  have hlisted : g.Listed ((popTo q s.stack).1 :: s.found) := by
    refine h.listed.cons ⟨q, h.node q hqs, fun x => ?_⟩ (fun x hx => ?_) fun x hx y hxy => ?_
    · rw [hup, h.mem_popped_iff hway hlow]
    · exact h.disjoint x ((hup x).1 hx).1
    · obtain ⟨hx, hqx⟩ := (hup x).1 hx
      rw [hup]
      exact h.edge_of_popped hway hlow hx hqx hxy
  have htidy : ({ s with way } : Tarjan).Tidy g := { h.toTidy with }
  exact {
    toTidy := htidy.close hqs
    way_stack := fun u hu => (hdown u).2 ⟨h.way_stack u (hkept u hu), hless u hu⟩
    way_descending := hdesc
    way_edges := by
      intro u edges hmem
      exact h.way_edges u edges (by rw [hway]; exact List.mem_cons_of_mem _ hmem)
    ahead := fun u hu x hx => h.ahead u (hkept u hu) x ((hdown x).1 hx).1
    back := by
      intro x hx
      obtain ⟨hx, hlt⟩ := (hdown x).1 hx
      obtain ⟨u, hu, hle, hxu⟩ := h.back x hx
      exact ⟨u, hstays u hu (hle.trans_lt hlt), hle, hxu⟩
    low := by
      intro u hu
      obtain ⟨x, hx, heq, hle, hux⟩ := h.low u (hkept u hu)
      exact ⟨x, (hdown x).2 ⟨hx, hle.trans_lt (hless u hu)⟩, heq, hle, hux⟩
    followed := fun x hx y hxy => h.followed x ((hdown x).1 hx).1 y (followed_of_tail hway hxy)
    noted := by
      intro x hx y hy hxy u hu hyu hux
      obtain ⟨hy, hyq⟩ := (hdown y).1 hy
      have hxy := followed_of_tail hway hxy
      obtain ⟨z, hz, huz, hnoted⟩ := h.noted x ((hdown x).1 hx).1 y hy hxy u (hkept u hu) hyu hux
      -- nothing below was noted at the node that is left
      rcases h.top hway hz with rfl | hlt
      · exact absurd hnoted (by omega)
      · exact ⟨z, hstays z hz hlt, huz, hnoted⟩
    listed := hlisted }

/-! ## §2. Steps -/

/-- Leaving a node, with or without its component. -/
theorem close_or_leave (h : s.Sound g) (hway : s.way = (q, []) :: way)
    (hbefore : ∀ p ∈ way.head?, s.lowOf p.1 ≤ s.lowOf q) :
    (if s.number[q]? = some (some (s.lowOf q)) then ({ s with way } : Tarjan).close q
      else { s with way }).Sound g := by
  have hq := mem_onWay hway
  have hnumber := (h.entered (h.way_stack q hq)).number
  split
  next heq =>
    rw [hnumber] at heq
    exact h.close hway (Option.some.inj (Option.some.inj heq)).symm
  next hne =>
    refine h.leave hway (lt_of_le_of_ne (h.lowOf_le hq) fun heq => hne ?_) hbefore
    rw [hnumber, heq]

/-- Leaving a node that is out of edges keeps the search sound. -/
theorem leave_present (h : s.Sound g) (hway : s.way = (q, []) :: way) :
    (({ s with way } : Tarjan).leave q).Sound g := by
  cases way with
  | nil => exact h.close_or_leave hway (by simp)
  | cons p rest =>
    have hq := mem_onWay hway
    have hp : p.1 ∈ s.onWay := by simp [onWay, hway]
    have hpq : s.rank p.1 < s.rank q := by
      have hdesc := h.way_descending
      unfold onWay at hdesc
      rw [hway, List.map_cons] at hdesc
      exact (List.pairwise_cons.1 hdesc).1 p.1 List.mem_cons_self
    have hne : q ≠ p.1 := fun heq => by
      rw [heq] at hpq
      exact lt_irrefl _ hpq
    -- the node before it takes over the low link first
    obtain ⟨x, hx, hlow, -, hqx⟩ := h.low q hq
    have hlower := h.lower hp hx ((h.ahead p.1 hp q (h.way_stack q hq) hpq.le).trans hqx)
    rw [hlow] at hlower
    have hsame : (s.lower p.1 (s.lowOf q)).lowOf q = s.lowOf q := by
      rw [lowOf_lower, if_neg hne]
    have hboth := hlower.close_or_leave hway (by
      intro p' hp'
      obtain rfl := Option.some.inj hp'
      rw [hsame, lowOf_lower, if_pos rfl]
      exact min_le_right _ _)
    rw [hsame] at hboth
    exact hboth

/-- Following an edge, as the first of those that are left. -/
theorem follow_present (wf : g.WellFormed) (h : s.Sound g)
    (hway : s.way = (q, v :: edges) :: way) :
    (({ s with way := (q, edges) :: way } : Tarjan).follow g q v).Sound g := by
  have hq := mem_onWay hway
  have hqv : g.Edge q v := by
    refine h.way_edges q (v :: edges) ?_ v List.mem_cons_self
    rw [hway]
    exact List.mem_cons_self
  have hlt : v < s.number.size := by
    rw [h.number_size]
    exact wf.target_lt hqv
  have hfirst : s.way = [] ++ (q, v :: edges) :: way := hway
  unfold follow
  dsimp only
  -- An entered node can only lower the link of `q`; a fresh one goes onto the way.
  rcases entered_or_fresh hlt with hv | hv
  · rw [hv.number]
    dsimp only
    split
    next hflag =>
      have hmem := h.flag_iff.1 hflag
      refine (h.lower hq hmem (.single hqv)).drop hfirst hv fun _ => ?_
      rw [lowOf_lower, if_pos rfl]
      exact min_le_right _ _
    next hflag => exact h.drop hfirst hv fun hmem => absurd (h.flag_iff.2 hmem) hflag
  · have hnumber : s.number[v]? = some none := hv
    rw [hnumber]
    -- Everything on the way reaches `q`, and so `v`.
    have hreach (u : Nat) (hu : u ∈ s.onWay) : g.Reaches u v := by
      refine .tail (h.ahead u hu q (h.way_stack q hq) ?_) hqv
      rcases h.top hway hu with rfl | hless
      · exact le_refl _
      · exact hless.le
    have henter := h.enter (wf.target_mem q v hqv) hv hreach
    have hway' : (s.enter g v).way = [(v, g.successors v)] ++ (q, v :: edges) :: way := by
      rw [way_enter, hway]
      rfl
    refine henter.drop hway'
      ((entered_enter_iff hv).2 (.inr rfl)) fun _ => ?_
    have hq' : q ∈ (s.enter g v).onWay := List.mem_cons_of_mem _ hq
    refine (henter.lowOf_le hq').trans ?_
    obtain ⟨hold, hnew⟩ := h.rank_enter (g := g) hv (h.way_stack q hq)
    omega

/-- A step keeps what is known. -/
theorem step (wf : g.WellFormed) (h : s.Sound g) : (s.step g).Sound g := by
  unfold Tarjan.step
  split
  next => exact h
  next q v edges way hway => exact h.follow_present wf hway
  next q way hway => exact h.leave_present hway

end Sound

/-! ## §3. The end of a search -/

/-- How many steps there are still to take: one for every edge to follow and for every
    node to leave, among them those of the nodes that were not entered yet. -/
def potential (g : Digraph) (s : Tarjan) : Nat :=
  (s.way.map fun p => p.2.length + 1).sum
    + ∑ v ∈ Finset.range g.bound, if s.Fresh v then (g.successors v).length + 1 else 0

/-- All steps are still to take when the search starts. -/
theorem potential_start (g : Digraph) : potential g (start g.bound) = g.steps := by
  have hfresh : ∀ v ∈ Finset.range g.bound,
      (if (start g.bound).Fresh v then (g.successors v).length + 1 else 0)
        = (g.successors v).length + 1 := by
    intro v hv
    refine if_pos ?_
    show (Array.replicate g.bound none)[v]? = some none
    rw [Array.getElem?_replicate, if_pos (Finset.mem_range.1 hv)]
  unfold potential
  rw [Finset.sum_congr rfl hfresh]
  exact Nat.zero_add _

/-- Entering a node brings its steps onto the way. -/
theorem potential_enter (hv : s.Fresh v) (hlt : v < g.bound) :
    potential g (s.enter g v) = potential g s := by
  have hmem : v ∈ Finset.range g.bound := Finset.mem_range.2 hlt
  have hself : ¬ (s.enter g v).Fresh v := fun hfresh => ((fresh_enter_iff hv).1 hfresh).2 rfl
  have hothers : ∀ x ∈ (Finset.range g.bound).erase v,
      (if (s.enter g v).Fresh x then (g.successors x).length + 1 else 0)
        = if s.Fresh x then (g.successors x).length + 1 else 0 := by
    intro x hx
    have hne := Finset.ne_of_mem_erase hx
    exact if_congr ((fresh_enter_iff hv).trans (and_iff_left hne)) rfl rfl
  unfold potential
  rw [← Finset.add_sum_erase _ _ hmem, ← Finset.add_sum_erase _ _ hmem,
    Finset.sum_congr rfl hothers, if_neg hself, if_pos hv, way_enter, List.map_cons, List.sum_cons]
  ring

theorem number_leave (s : Tarjan) (q : Nat) : (s.leave q).number = s.number := by
  unfold leave
  cases s.way with
  | nil => simp only; split <;> rfl
  | cons p way => simp only; split <;> rfl

/-- What is left to do counts no node that is left. -/
theorem potential_leave (g : Digraph) (s : Tarjan) (q : Nat) :
    potential g (s.leave q) = potential g s := by
  unfold leave
  cases s.way with
  | nil => simp only; split <;> rfl
  | cons p way => simp only; split <;> rfl

/-- Every step is one less to take. -/
theorem potential_step (hsize : s.number.size = g.bound) (hway : s.way ≠ []) :
    potential g (s.step g) + 1 = potential g s := by
  unfold step
  split
  next hnil => exact absurd hnil hway
  next q v edges way hway =>
    -- Taking an edge off the list is one step; entering its target leaves the sum alone.
    have hedge : potential g { s with way := (q, edges) :: way } + 1 = potential g s := by
      unfold potential
      simp only [hway, List.map_cons, List.sum_cons, List.length_cons]
      show _ + 1 = _ + ∑ v ∈ Finset.range g.bound,
        if ({ s with way := (q, edges) :: way } : Tarjan).Fresh v then _ else _
      ring
    rw [← hedge]
    congr 1
    unfold follow
    split
    next => rfl
    next hnone =>
      have hfresh : ({ s with way := (q, edges) :: way } : Tarjan).Fresh v := hnone
      exact potential_enter hfresh (hsize ▸ hfresh.lt)
    next => split <;> rfl
  next q way hway =>
    rw [potential_leave]
    unfold potential
    simp only [hway, List.map_cons, List.sum_cons, List.length_nil]
    show _ + 1 = _ + ∑ v ∈ Finset.range g.bound,
      if ({ s with way } : Tarjan).Fresh v then _ else _
    ring

/-- A node that has been entered stays so. -/
theorem entered_step (h : s.Entered v) : (s.step g).Entered v := by
  unfold step
  split
  next => exact h
  next q u edges way =>
    unfold follow
    split
    next => exact h
    next hnone => exact (entered_enter_iff hnone).2 (.inl h)
    next => split <;> exact h
  next q way hway =>
    have hnumber := number_leave { s with way } q
    unfold Entered
    rw [hnumber]
    exact h

/-- With no smaller limit than the number of steps to take, a search ends. -/
theorem run_ends (wf : g.WellFormed) (steps : Nat) (h : s.Sound g) (hsteps : potential g s ≤ steps) :
    (run g steps s).Sound g ∧ (run g steps s).way = []
      ∧ potential g (run g steps s) ≤ potential g s
      ∧ ∀ v, s.Entered v → (run g steps s).Entered v := by
  induction steps generalizing s with
  | zero =>
    refine ⟨h, ?_, le_refl _, fun v hv => hv⟩
    -- something on the way would be a step to take
    by_contra hway
    have := potential_step h.number_size hway
    omega
  | succ steps ih =>
    unfold run
    split
    next hnil => exact ⟨h, List.isEmpty_iff.1 hnil, le_refl _, fun v hv => hv⟩
    next hne =>
      have hstep := potential_step h.number_size fun hnil => hne (List.isEmpty_iff.2 hnil)
      obtain ⟨hsound, hway, hle, hkeeps⟩ := ih (h.step wf) (by omega)
      exact ⟨hsound, hway, by omega, fun v hv => hkeeps v (entered_step hv)⟩

/-- Searching from a node. -/
theorem explore_ends (wf : g.WellFormed) {root : Nat} (hroot : root ∈ g.nodes) (h : s.Sound g)
    (hway : s.way = []) (hsteps : potential g s ≤ g.steps) :
    (explore g g.steps s root).Sound g ∧ (explore g g.steps s root).way = []
      ∧ potential g (explore g g.steps s root) ≤ g.steps
      ∧ ∀ v, s.Entered v ∨ v = root → (explore g g.steps s root).Entered v := by
  have hlt : root < s.number.size := by
    rw [h.number_size]
    exact wf.node_lt root hroot
  unfold explore
  -- A root that was entered before is skipped.
  rcases entered_or_fresh hlt with hentered | hfresh
  · rw [hentered.number]
    refine ⟨h, hway, hsteps, ?_⟩
    rintro v (hv | rfl)
    · exact hv
    · exact hentered
  · have hnumber : s.number[root]? = some none := hfresh
    rw [hnumber]
    have hnone (u : Nat) (hu : u ∈ s.onWay) : g.Reaches u root := by
      unfold onWay at hu
      rw [hway] at hu
      exact absurd hu List.not_mem_nil
    have henter := h.enter hroot hfresh hnone
    have hpotential := potential_enter hfresh (wf.node_lt root hroot)
    obtain ⟨hsound, hdone, hle, hkeeps⟩ := run_ends wf g.steps henter (by omega)
    refine ⟨hsound, hdone, hle.trans (hpotential.le.trans hsteps), fun v hv => ?_⟩
    exact hkeeps v ((entered_enter_iff hfresh).2 hv)

/-- When nothing is on the way, nothing is on the stack. -/
theorem Sound.stack_eq_nil (h : s.Sound g) (hway : s.way = []) : s.stack = [] := by
  refine List.eq_nil_iff_forall_not_mem.2 fun x hx => ?_
  obtain ⟨u, hu, -⟩ := h.back x hx
  unfold onWay at hu
  rw [hway] at hu
  exact List.not_mem_nil hu

end Tarjan

/-- The components that are found, the latest first. -/
theorem components_listed {g : Digraph} (wf : g.WellFormed) :
    ∃ found, g.components = found.reverse ∧ g.Listed found ∧ ∀ v ∈ g.nodes, ∃ c ∈ found, v ∈ c := by
  -- By induction on the roots; between two of them the way is empty.
  have hall (roots : List Nat) (hroots : ∀ v ∈ roots, v ∈ g.nodes) (s : Tarjan) (h : s.Sound g)
      (hway : s.way = []) (hsteps : s.potential g ≤ g.steps) :
      ∃ t : Tarjan, roots.foldl (Tarjan.explore g g.steps) s = t ∧ t.Sound g ∧ t.way = []
        ∧ ∀ v, s.Entered v ∨ v ∈ roots → t.Entered v := by
    induction roots generalizing s with
    | nil => exact ⟨s, rfl, h, hway, fun v hv => hv.resolve_right List.not_mem_nil⟩
    | cons root roots ih =>
      obtain ⟨hsound, hdone, hle, hkeeps⟩ :=
        Tarjan.explore_ends wf (hroots root List.mem_cons_self) h hway hsteps
      obtain ⟨t, ht, htsound, htway, htkeeps⟩ :=
        ih (fun v hv => hroots v (List.mem_cons_of_mem _ hv)) _ hsound hdone hle
      refine ⟨t, ht, htsound, htway, fun v hv => htkeeps v ?_⟩
      rcases hv with hv | hv
      · exact .inl (hkeeps v (.inl hv))
      · rcases List.mem_cons.1 hv with rfl | hv
        · exact .inl (hkeeps v (.inr rfl))
        · exact .inr hv
  obtain ⟨t, ht, hsound, hway, hentered⟩ :=
    hall g.nodes (fun v hv => hv) _ (.start g) rfl (Tarjan.potential_start g).le
  refine ⟨t.found, by rw [components, ht], hsound.listed, fun v hv => ?_⟩
  have hmem := (hsound.entered_iff v).1 (hentered v (.inr hv))
  rw [hsound.stack_eq_nil hway] at hmem
  exact hmem.resolve_left List.not_mem_nil

end Digraph
end LinearTime
