/-
  LinearTime.Proofs.LowLinks — what a search with low links knows.

  The nodes on the stack descend by their numbers, and so do the nodes on the way,
  which are among them.  At every moment

    * a node on the way reaches all nodes from it upwards on the stack (`ahead`),
    * a node on the stack reaches one on the way that is not above it (`back`),
    * a low link is the number of a node on the stack that can be reached (`low`),
    * an edge that was followed and leads from above a node on the way to below it
      was noted there or above: some low link tells of it (`noted`).

  Main results:
    * `Sound.enter`, `Sound.lower`, `Sound.drop`, `Sound.leave` — these facts are kept
      by entering a node, lowering a low link, passing an edge and leaving a node
      whose component goes on.
-/

import LinearTime.Proofs.DepthFirst
import LinearTime.Digraph.Components

namespace LinearTime
namespace Digraph

/-! ## §1. Components found so far -/

/-- What is known of the components found so far, the latest first: they are classes,
    and edges lead from them only to components found before, or to themselves. -/
structure Listed (g : Digraph) (found : List (List Nat)) : Prop where
  class_of : ∀ c ∈ found, ∃ r ∈ g.nodes, ∀ x, x ∈ c ↔ g.Mutual r x
  disjoint : found.Pairwise List.Disjoint
  closed : ∀ c ∈ found, ∀ x ∈ c, ∀ y, g.Edge x y → ∃ d ∈ found, y ∈ d
  ordered : found.Pairwise fun c d => ∀ x ∈ d, ∀ y ∈ c, ¬ g.Edge x y

namespace Tarjan

variable {g : Digraph} {s : Tarjan} {q u v x y : Nat} {way before : List (Nat × List Nat)}
  {edges : List Nat}

/-! ## §2. Lookups after changes -/

/-- The node was entered. -/
def Entered (s : Tarjan) (v : Nat) : Prop := ∃ n, s.number[v]? = some (some n)

/-- The node can still be entered. -/
def Fresh (s : Tarjan) (v : Nat) : Prop := s.number[v]? = some none

instance (s : Tarjan) (v : Nat) : Decidable (s.Fresh v) :=
  inferInstanceAs (Decidable (s.number[v]? = some none))

/-- The number of a node that was entered. -/
def rank (s : Tarjan) (v : Nat) : Nat := s.number[v]?.join.getD 0

/-- The low link of a node that was entered. -/
def lowOf (s : Tarjan) (v : Nat) : Nat := s.low[v]?.getD 0

/-- The nodes on the way, the present one first. -/
def onWay (s : Tarjan) : List Nat := s.way.map (·.1)

/-- The edge was followed: it is not one that is to be followed yet. -/
def Followed (g : Digraph) (s : Tarjan) (u v : Nat) : Prop :=
  g.Edge u v ∧ ∀ edges, (u, edges) ∈ s.way → v ∉ edges

theorem Fresh.lt (h : s.Fresh v) : v < s.number.size := by
  by_contra hge
  unfold Fresh at h
  rw [Array.getElem?_eq_none (by omega)] at h
  cases h

theorem Fresh.not_entered (h : s.Fresh v) : ¬ s.Entered v := by
  rintro ⟨n, hn⟩
  cases h.symm.trans hn

/-- Every node was entered or is still fresh. -/
theorem entered_or_fresh (h : v < s.number.size) : s.Entered v ∨ s.Fresh v := by
  unfold Entered Fresh
  rw [Array.getElem?_eq_getElem h]
  cases s.number[v] with
  | none => exact .inr rfl
  | some n => exact .inl ⟨n, rfl⟩

theorem rank_of_number {n : Nat} (h : s.number[v]? = some (some n)) : s.rank v = n := by
  simp [rank, h]

/-- A node that was entered has its rank for a number. -/
theorem Entered.number (h : s.Entered v) : s.number[v]? = some (some (s.rank v)) := by
  obtain ⟨n, hn⟩ := h
  rw [rank_of_number hn, hn]

/-- In the beginning no node was entered. -/
theorem not_entered_start (bound v : Nat) : ¬ (start bound).Entered v := by
  rintro ⟨n, hn⟩
  have hn : (Array.replicate bound none)[v]? = some (some n) := hn
  rw [Array.getElem?_replicate] at hn
  split at hn <;> cases hn

theorem not_onStack_start (bound v : Nat) : (start bound).onStack[v]? ≠ some true := by
  show (Array.replicate bound false)[v]? ≠ some true
  rw [Array.getElem?_replicate]
  split <;> simp

@[simp] theorem stack_enter (g : Digraph) (s : Tarjan) (v : Nat) :
    (s.enter g v).stack = v :: s.stack := rfl

@[simp] theorem way_enter (g : Digraph) (s : Tarjan) (v : Nat) :
    (s.enter g v).way = (v, g.successors v) :: s.way := rfl

@[simp] theorem found_enter (g : Digraph) (s : Tarjan) (v : Nat) :
    (s.enter g v).found = s.found := rfl

/-- Entering a fresh node gives it the current number and changes no other. -/
theorem number_enter (h : s.Fresh v) :
    (s.enter g v).number[x]? = if x = v then some (some s.current) else s.number[x]? := by
  show (s.number.setIfInBounds v (some s.current))[x]? = _
  rw [Array.getElem?_setIfInBounds]
  by_cases hx : x = v
  · rw [if_pos hx.symm, if_pos hx, if_pos h.lt]
  · rw [if_neg (Ne.symm hx), if_neg hx]

/-- After entering a node, this one was entered, too. -/
theorem entered_enter_iff (h : s.Fresh v) : (s.enter g v).Entered x ↔ s.Entered x ∨ x = v := by
  unfold Entered
  rw [number_enter h]
  by_cases hx : x = v
  · simp [hx]
  · simp [hx]

/-- After entering a node, this one is no longer fresh. -/
theorem fresh_enter_iff (h : s.Fresh v) : (s.enter g v).Fresh x ↔ s.Fresh x ∧ x ≠ v := by
  unfold Fresh
  rw [number_enter h]
  by_cases hx : x = v
  · simp [hx]
  · simp [hx]

/-- The node that is entered gets the current number for a rank. -/
theorem rank_enter_self (h : s.Fresh v) : (s.enter g v).rank v = s.current := by
  simp [rank, number_enter h]

/-- Nodes that were entered before keep their ranks. -/
theorem rank_enter_of_entered (h : s.Fresh v) (hx : s.Entered x) : (s.enter g v).rank x = s.rank x := by
  have hne : x ≠ v := fun hxv => h.not_entered (hxv ▸ hx)
  simp [rank, number_enter h, hne]

/-- The low link of a node starts as its own rank. -/
theorem lowOf_enter_self (h : v < s.low.size) : (s.enter g v).lowOf v = s.current := by
  show ((s.low.setIfInBounds v s.current)[v]?).getD 0 = s.current
  simp [h]

/-- Entering a node changes no other low link. -/
theorem lowOf_enter (hx : x ≠ v) : (s.enter g v).lowOf x = s.lowOf x := by
  show ((s.low.setIfInBounds v s.current)[x]?).getD 0 = (s.low[x]?).getD 0
  rw [Array.getElem?_setIfInBounds, if_neg (Ne.symm hx)]

/-- Lowering changes the low link of one node, and never upwards. -/
theorem lowOf_lower (s : Tarjan) (v n x : Nat) :
    (s.lower v n).lowOf x = if x = v then min (s.lowOf x) n else s.lowOf x := by
  unfold lowOf lower
  rw [Array.getElem?_modify]
  by_cases hx : x = v
  · rw [if_pos hx.symm, if_pos hx]
    cases s.low[x]? with
    | none => simp
    | some l => rfl
  · rw [if_neg (Ne.symm hx), if_neg hx]

theorem lowOf_lower_le (s : Tarjan) (v n x : Nat) : (s.lower v n).lowOf x ≤ s.lowOf x := by
  rw [lowOf_lower]
  split
  · exact min_le_left _ _
  · exact le_refl _

/-- A node all edges of which were followed plays no part in what was followed. -/
theorem followed_of_tail (hway : s.way = (q, []) :: way)
    (h : ({ s with way } : Tarjan).Followed g x y) : s.Followed g x y := by
  refine ⟨h.1, fun edges hmem => ?_⟩
  rw [hway] at hmem
  rcases List.mem_cons.1 hmem with heq | hmem
  · obtain ⟨-, rfl⟩ := Prod.mk.inj heq
    exact List.not_mem_nil
  · exact h.2 edges hmem

/-- No edge of a node that was just entered was followed. -/
theorem followed_enter (hx : x ∈ v :: s.stack) (h : (s.enter g v).Followed g x y) :
    x ∈ s.stack ∧ s.Followed g x y := by
  have hold : s.Followed g x y :=
    ⟨h.1, fun edges hmem => h.2 edges (List.mem_cons_of_mem _ hmem)⟩
  refine ⟨(List.mem_cons.1 hx).resolve_left ?_, hold⟩
  rintro rfl
  exact h.2 _ List.mem_cons_self h.1

/-- Passing an edge on the way makes no other one followed. -/
theorem followed_drop (hway : s.way = before ++ (q, v :: edges) :: way)
    (h : ({ s with way := before ++ (q, edges) :: way } : Tarjan).Followed g x y) :
    s.Followed g x y ∨ (x = q ∧ y = v) := by
  by_cases hboth : x = q ∧ y = v
  · exact .inr hboth
  · refine .inl ⟨h.1, fun rest hmem => ?_⟩
    rw [hway] at hmem
    rcases List.mem_append.1 hmem with hmem | hmem
    · exact h.2 rest (List.mem_append_left _ hmem)
    · rcases List.mem_cons.1 hmem with heq | hmem
      · obtain ⟨rfl, rfl⟩ := Prod.mk.inj heq
        have hold := h.2 edges (List.mem_append_right _ List.mem_cons_self)
        rw [List.mem_cons]
        exact not_or.2 ⟨fun hyv => hboth ⟨rfl, hyv⟩, hold⟩
      · exact h.2 rest (List.mem_append_right _ (List.mem_cons_of_mem _ hmem))

/-! ## §3. What is known -/

/-- The stack, its flags and the numbers tell the same: a node that was entered is on
    the stack or in a component, and the stack descends. -/
structure Tidy (g : Digraph) (s : Tarjan) : Prop where
  number_size : s.number.size = g.bound
  low_size : s.low.size = g.bound
  onStack_size : s.onStack.size = g.bound
  onStack_iff : ∀ v, s.onStack[v]? = some true ↔ v ∈ s.stack
  entered_iff : ∀ v, s.Entered v ↔ v ∈ s.stack ∨ ∃ c ∈ s.found, v ∈ c
  disjoint : ∀ v ∈ s.stack, ∀ c ∈ s.found, v ∉ c
  rank_lt : ∀ v, s.Entered v → s.rank v < s.current
  node : ∀ v ∈ s.stack, v ∈ g.nodes
  descending : s.stack.Pairwise fun u v => s.rank v < s.rank u

/-- What is known at every moment of a search. -/
structure Sound (g : Digraph) (s : Tarjan) : Prop extends s.Tidy g where
  way_stack : ∀ v ∈ s.onWay, v ∈ s.stack
  way_descending : s.onWay.Pairwise fun u v => s.rank v < s.rank u
  way_edges : ∀ v edges, (v, edges) ∈ s.way → ∀ u ∈ edges, g.Edge v u
  ahead : ∀ v ∈ s.onWay, ∀ x ∈ s.stack, s.rank v ≤ s.rank x → g.Reaches v x
  back : ∀ x ∈ s.stack, ∃ v ∈ s.onWay, s.rank v ≤ s.rank x ∧ g.Reaches x v
  low : ∀ v ∈ s.onWay, ∃ x ∈ s.stack,
    s.rank x = s.lowOf v ∧ s.rank x ≤ s.rank v ∧ g.Reaches v x
  followed : ∀ x ∈ s.stack, ∀ y, s.Followed g x y → s.Entered y
  noted : ∀ x ∈ s.stack, ∀ y ∈ s.stack, s.Followed g x y →
    ∀ v ∈ s.onWay, s.rank y < s.rank v → s.rank v ≤ s.rank x →
      ∃ u ∈ s.onWay, s.rank v ≤ s.rank u ∧ s.lowOf u ≤ s.rank y
  listed : g.Listed s.found

/-! ## §4. What keeps it -/

namespace Tidy

/-- The books are in order before the first step. -/
theorem start (g : Digraph) : (Tarjan.start g.bound).Tidy g where
  number_size := Array.size_replicate
  low_size := Array.size_replicate
  onStack_size := Array.size_replicate
  onStack_iff v := iff_of_false (not_onStack_start g.bound v) List.not_mem_nil
  entered_iff v := iff_of_false (not_entered_start g.bound v) (by simp [Tarjan.start])
  disjoint v hv := absurd hv List.not_mem_nil
  rank_lt v hv := absurd hv (not_entered_start g.bound v)
  node v hv := absurd hv List.not_mem_nil
  descending := List.Pairwise.nil

/-- What is on the stack was entered. -/
theorem entered (h : s.Tidy g) (hx : x ∈ s.stack) : s.Entered x := (h.entered_iff x).2 (.inl hx)

/-- What is on the stack keeps its number, and the next node gets a greater one. -/
theorem rank_enter (h : s.Tidy g) (hfresh : s.Fresh v) (hx : x ∈ s.stack) :
    (s.enter g v).rank x = s.rank x ∧ s.rank x < (s.enter g v).rank v := by
  rw [rank_enter_self hfresh]
  exact ⟨rank_enter_of_entered hfresh (h.entered hx), h.rank_lt x (h.entered hx)⟩

/-- Entering a fresh node keeps the books in order. -/
theorem enter (h : s.Tidy g) (hv : v ∈ g.nodes) (hfresh : s.Fresh v) : (s.enter g v).Tidy g where
  number_size := (Array.size_setIfInBounds ..).trans h.number_size
  low_size := (Array.size_setIfInBounds ..).trans h.low_size
  onStack_size := (Array.size_setIfInBounds ..).trans h.onStack_size
  onStack_iff x := by
    show (s.onStack.setIfInBounds v true)[x]? = some true ↔ x ∈ v :: s.stack
    rw [Array.getElem?_setIfInBounds, List.mem_cons, ← h.onStack_iff]
    -- the arrays are of one size, and the node fits into them
    have hlt : v < s.onStack.size := by
      rw [h.onStack_size, ← h.number_size]
      exact hfresh.lt
    by_cases hxv : x = v
    · simp [hxv, hlt]
    · simp [hxv, Ne.symm hxv]
  entered_iff x := by
    rw [entered_enter_iff hfresh, h.entered_iff, stack_enter, found_enter, List.mem_cons]
    exact or_right_comm.trans (or_congr_left or_comm)
  disjoint x hx c hc hxc := by
    rcases List.mem_cons.1 hx with rfl | hx
    · exact hfresh.not_entered ((h.entered_iff x).2 (.inr ⟨c, hc, hxc⟩))
    · exact h.disjoint x hx c hc hxc
  rank_lt x hx := by
    show _ < s.current + 1
    rcases (entered_enter_iff hfresh).1 hx with hx | rfl
    · rw [rank_enter_of_entered hfresh hx]
      exact (h.rank_lt x hx).trans (Nat.lt_succ_self _)
    · rw [rank_enter_self hfresh]
      exact Nat.lt_succ_self _
  node x hx := by
    rcases List.mem_cons.1 hx with rfl | hx
    · exact hv
    · exact h.node x hx
  descending := by
    refine List.pairwise_cons.2 ⟨fun x hx => ?_, h.descending.imp_of_mem fun hx hy hlt => ?_⟩
    · obtain ⟨hold, hnew⟩ := h.rank_enter hfresh (g := g) hx
      rwa [hold]
    · rwa [(h.rank_enter hfresh hx).1, (h.rank_enter hfresh hy).1]

end Tidy

namespace Sound

/-- Nothing is claimed of any node before the first step. -/
theorem start (g : Digraph) : (Tarjan.start g.bound).Sound g where
  toTidy := .start g
  way_stack v hv := absurd hv List.not_mem_nil
  way_descending := List.Pairwise.nil
  way_edges v edges h := absurd h List.not_mem_nil
  ahead v hv := absurd hv List.not_mem_nil
  back x hx := absurd hx List.not_mem_nil
  low v hv := absurd hv List.not_mem_nil
  followed x hx := absurd hx List.not_mem_nil
  noted x hx := absurd hx List.not_mem_nil
  listed := ⟨by simp [Tarjan.start], .nil, by simp [Tarjan.start], .nil⟩

/-- The low link of a node on the way is at most its own rank. -/
theorem lowOf_le (h : s.Sound g) (hv : v ∈ s.onWay) : s.lowOf v ≤ s.rank v := by
  obtain ⟨x, -, hlow, hle, -⟩ := h.low v hv
  omega

theorem onWay_eq (hway : s.way = (q, edges) :: way) : s.onWay = q :: way.map (·.1) := by
  unfold onWay
  rw [hway, List.map_cons]

theorem mem_onWay (hway : s.way = (q, edges) :: way) : q ∈ s.onWay := by
  rw [onWay_eq hway]
  exact List.mem_cons_self

/-- The nodes before the present one on the way are less. -/
theorem behind_descending (h : s.Sound g) (hway : s.way = (q, edges) :: way) :
    (∀ u ∈ way.map (·.1), s.rank u < s.rank q)
      ∧ (way.map (·.1)).Pairwise fun u v => s.rank v < s.rank u := by
  have hdesc := h.way_descending
  rw [onWay_eq hway] at hdesc
  exact List.pairwise_cons.1 hdesc

/-- The node that the search is at has the largest rank on the way. -/
theorem top (h : s.Sound g) (hway : s.way = (q, edges) :: way) (hu : u ∈ s.onWay) :
    u = q ∨ s.rank u < s.rank q := by
  rw [onWay_eq hway] at hu
  rcases List.mem_cons.1 hu with rfl | hu
  · exact .inl rfl
  · exact .inr ((h.behind_descending hway).1 u hu)

/-- Entering a node that all nodes on the way lead to. -/
theorem enter (h : s.Sound g) (hv : v ∈ g.nodes) (hfresh : s.Fresh v)
    (hreach : ∀ u ∈ s.onWay, g.Reaches u v) : (s.enter g v).Sound g := by
  have hnot : v ∉ s.stack := fun hmem => hfresh.not_entered (h.entered hmem)
  have hrank (x : Nat) (hx : x ∈ s.stack) := h.rank_enter hfresh (g := g) hx
  have hrankw (u : Nat) (hu : u ∈ s.onWay) := hrank u (h.way_stack u hu)
  have hlow (u : Nat) (hu : u ∈ s.onWay) : (s.enter g v).lowOf u = s.lowOf u :=
    lowOf_enter fun huv => hnot (huv ▸ h.way_stack u hu)
  exact {
    toTidy := h.toTidy.enter hv hfresh
    way_stack := by
      intro u hu
      rcases List.mem_cons.1 hu with rfl | hu
      · exact List.mem_cons_self
      · exact List.mem_cons_of_mem _ (h.way_stack u hu)
    way_descending := by
      refine List.pairwise_cons.2 ⟨fun u hu => ?_, h.way_descending.imp_of_mem fun hu hw hlt => ?_⟩
      · rw [(hrankw u hu).1]
        exact (hrankw u hu).2
      · rwa [(hrankw _ hu).1, (hrankw _ hw).1]
    way_edges := by
      intro u edges hmem w hw
      rcases List.mem_cons.1 hmem with heq | hmem
      · obtain ⟨rfl, rfl⟩ := Prod.mk.inj heq
        exact hw
      · exact h.way_edges u edges hmem w hw
    ahead := by
      intro u hu x hx hle
      rcases List.mem_cons.1 hx with rfl | hx
      · rcases List.mem_cons.1 hu with rfl | hu
        · exact .refl
        · exact hreach u hu
      · have hxr := hrank x hx
        rcases List.mem_cons.1 hu with rfl | hu
        · exact absurd hle (by omega)
        · rw [hxr.1, (hrankw u hu).1] at hle
          exact h.ahead u hu x hx hle
    back := by
      intro x hx
      rcases List.mem_cons.1 hx with rfl | hx
      · exact ⟨x, List.mem_cons_self, le_refl _, .refl⟩
      · obtain ⟨u, hu, hle, hxu⟩ := h.back x hx
        refine ⟨u, List.mem_cons_of_mem _ hu, ?_, hxu⟩
        rwa [(hrank x hx).1, (hrankw u hu).1]
    low := by
      intro u hu
      rcases List.mem_cons.1 hu with rfl | hu
      · refine ⟨u, List.mem_cons_self, ?_, le_refl _, .refl⟩
        rw [rank_enter_self hfresh, lowOf_enter_self]
        rw [h.low_size, ← h.number_size]
        exact hfresh.lt
      · obtain ⟨x, hx, heq, hle, hux⟩ := h.low u hu
        refine ⟨x, List.mem_cons_of_mem _ hx, ?_, ?_, hux⟩
        · rw [(hrank x hx).1, hlow u hu, heq]
        · rwa [(hrank x hx).1, (hrankw u hu).1]
    followed := by
      intro x hx y hxy
      obtain ⟨hx, hxy⟩ := followed_enter hx hxy
      exact (entered_enter_iff hfresh).2 (.inl (h.followed x hx y hxy))
    noted := by
      intro x hx y hy hxy u hu hyu hux
      obtain ⟨hx, hxy⟩ := followed_enter hx hxy
      have hxr := hrank x hx
      -- the new node is above all others, so it plays no part
      rcases List.mem_cons.1 hu with rfl | hu
      · exact absurd hux (by omega)
      have hur := hrankw u hu
      rcases List.mem_cons.1 hy with rfl | hy
      · exact absurd hyu (by omega)
      rw [(hrank y hy).1, hur.1] at hyu
      rw [hxr.1, hur.1] at hux
      obtain ⟨w, hw, hle, hnoted⟩ := h.noted x hx y hy hxy u hu hyu hux
      refine ⟨w, List.mem_cons_of_mem _ hw, ?_, ?_⟩
      · rwa [hur.1, (hrankw w hw).1]
      · rwa [hlow w hw, (hrank y hy).1]
    listed := h.listed }

/-- Lowering a low link to the number of a node that can be reached. -/
theorem lower (h : s.Sound g) (hq : q ∈ s.onWay) (hx : x ∈ s.stack) (hqx : g.Reaches q x) :
    (s.lower q (s.rank x)).Sound g where
  toTidy := { h.toTidy with low_size := Array.size_modify.trans h.low_size }
  way_stack := h.way_stack
  way_descending := h.way_descending
  way_edges := h.way_edges
  ahead := h.ahead
  back := h.back
  low := by
    intro v hv
    obtain ⟨y, hy, hlow, hle, hvy⟩ := h.low v hv
    rw [lowOf_lower]
    by_cases hvq : v = q
    · subst hvq
      rw [if_pos rfl]
      -- The link is now the smaller of the two, and a node on the stack for each.
      rcases le_total (s.lowOf v) (s.rank x) with hmin | hmin
      · exact ⟨y, hy, by rw [min_eq_left hmin]; exact hlow, hle, hvy⟩
      · refine ⟨x, hx, by rw [min_eq_right hmin]; rfl, ?_, hqx⟩
        show s.rank x ≤ s.rank v
        omega
    · rw [if_neg hvq]
      exact ⟨y, hy, hlow, hle, hvy⟩
  followed := h.followed
  noted := by
    intro y hy z hz hyz v hv hzv hvy
    obtain ⟨u, hu, hle, hnoted⟩ := h.noted y hy z hz hyz v hv hzv hvy
    exact ⟨u, hu, hle, (lowOf_lower_le s q (s.rank x) u).trans hnoted⟩
  listed := h.listed

/-- An edge to a node that was entered counts as followed once the low link of its
    source takes it into account. -/
theorem drop (h : s.Sound g) (hway : s.way = before ++ (q, v :: edges) :: way) (hv : s.Entered v)
    (hlow : v ∈ s.stack → s.lowOf q ≤ s.rank v) :
    ({ s with way := before ++ (q, edges) :: way } : Tarjan).Sound g := by
  -- The way is the same, but for an edge that is no longer to follow.
  have honWay : ({ s with way := before ++ (q, edges) :: way } : Tarjan).onWay = s.onWay := by
    simp [onWay, hway]
  have hq : q ∈ s.onWay := by simp [onWay, hway]
  exact {
    toTidy := { h.toTidy with }
    way_stack := by
      rw [honWay]
      exact h.way_stack
    way_descending := by
      rw [honWay]
      exact h.way_descending
    way_edges := by
      intro u rest hmem w hw
      rcases List.mem_append.1 hmem with hmem | hmem
      · exact h.way_edges u rest (by rw [hway]; exact List.mem_append_left _ hmem) w hw
      · rcases List.mem_cons.1 hmem with heq | hmem
        · obtain ⟨rfl, rfl⟩ := Prod.mk.inj heq
          exact h.way_edges u (v :: rest) (by rw [hway]; simp) w (List.mem_cons_of_mem _ hw)
        · exact h.way_edges u rest (by rw [hway]; simp [hmem]) w hw
    ahead := by
      rw [honWay]
      exact h.ahead
    back := by
      rw [honWay]
      exact h.back
    low := by
      rw [honWay]
      exact h.low
    followed := by
      intro x hx y hxy
      rcases followed_drop hway hxy with hxy | ⟨rfl, rfl⟩
      · exact h.followed x hx y hxy
      · exact hv
    noted := by
      rw [honWay]
      intro x hx y hy hxy u hu hyu hux
      rcases followed_drop hway hxy with hxy | ⟨rfl, rfl⟩
      · exact h.noted x hx y hy hxy u hu hyu hux
      · exact ⟨x, hq, hux, hlow hy⟩
    listed := h.listed }

/-- Leaving a node whose component goes on, when the node before it on the way has
    taken over its low link. -/
theorem leave (h : s.Sound g) (hway : s.way = (q, []) :: way) (hlow : s.lowOf q < s.rank q)
    (hbefore : ∀ p ∈ way.head?, s.lowOf p.1 ≤ s.lowOf q) :
    ({ s with way } : Tarjan).Sound g := by
  obtain ⟨-, hdesc⟩ := h.behind_descending hway
  have hkept (u : Nat) (hu : u ∈ way.map (·.1)) : u ∈ s.onWay := by
    rw [onWay_eq hway]
    exact List.mem_cons_of_mem _ hu
  have hstays (u : Nat) (hu : u ∈ s.onWay) (hne : u ≠ q) : u ∈ way.map (·.1) := by
    rw [onWay_eq hway] at hu
    exact (List.mem_cons.1 hu).resolve_left hne
  -- the node that is left reaches another one on the way by its low link
  obtain ⟨w, hw, hwq, hqw⟩ : ∃ w ∈ way.map (·.1), s.rank w < s.rank q ∧ g.Reaches q w := by
    obtain ⟨x, hx, heq, -, hqx⟩ := h.low q (mem_onWay hway)
    obtain ⟨w, hw, hle, hxw⟩ := h.back x hx
    have hlt : s.rank w < s.rank q := by omega
    refine ⟨w, hstays w hw ?_, hlt, hqx.trans hxw⟩
    rintro rfl
    exact lt_irrefl _ hlt
  exact {
    toTidy := { h.toTidy with }
    way_stack := fun u hu => h.way_stack u (hkept u hu)
    way_descending := hdesc
    way_edges := by
      intro u edges hmem
      exact h.way_edges u edges (by rw [hway]; exact List.mem_cons_of_mem _ hmem)
    ahead := fun u hu => h.ahead u (hkept u hu)
    back := by
      intro x hx
      obtain ⟨u, hu, hux, hxu⟩ := h.back x hx
      by_cases huq : u = q
      · subst huq
        exact ⟨w, hw, hwq.le.trans hux, hxu.trans hqw⟩
      · exact ⟨u, hstays u hu huq, hux, hxu⟩
    low := fun u hu => h.low u (hkept u hu)
    followed := fun x hx y hxy => h.followed x hx y (followed_of_tail hway hxy)
    noted := by
      intro x hx y hy hxy u hu hyu hux
      have hxy := followed_of_tail hway hxy
      obtain ⟨z, hz, huz, hnoted⟩ := h.noted x hx y hy hxy u (hkept u hu) hyu hux
      by_cases hzq : z = q
      · -- what was noted at the node that is left is noted at the one before it
        subst hzq
        obtain ⟨p, rest, rfl⟩ : ∃ p rest, way = p :: rest :=
          List.exists_cons_of_ne_nil fun hnil => by
            rw [hnil] at hu
            exact List.not_mem_nil hu
        refine ⟨p.1, List.mem_cons_self, ?_, (hbefore p rfl).trans hnoted⟩
        rcases List.mem_cons.1 hu with rfl | hu
        · exact le_refl _
        · exact ((List.pairwise_cons.1 hdesc).1 u hu).le
      · exact ⟨z, hstays z hz hzq, huz, hnoted⟩
    listed := h.listed }

end Sound

end Tarjan
end Digraph
end LinearTime
