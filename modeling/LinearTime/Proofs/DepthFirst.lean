/-
  LinearTime.Proofs.DepthFirst — what a depth-first search finds.

  A search enters what can be reached over nodes not entered before.  Visiting nodes
  one after the other (`Visited`)

    * keeps what was entered,
    * lists as left exactly what it enters,
    * enters the nodes it is sent to and the successors of all it leaves, and
    * leaves only what can be reached from the nodes it is sent to.

  Main results:
    * `visit_visited` — one visit.
    * `reach_entered_iff` — a search from a node enters what can be reached.
-/

import Mathlib
import LinearTime.Digraph.Search

namespace LinearTime
namespace Digraph

/-! ## §1. Walks -/

/-- There is an edge from `u` to `v`. -/
def Edge (g : Digraph) (u v : Nat) : Prop := v ∈ g.successors u

/-- A walk leads from `u` to `v`. -/
def Reaches (g : Digraph) : Nat → Nat → Prop := Relation.ReflTransGen g.Edge

/-- Each of two nodes can be reached from the other. -/
def Mutual (g : Digraph) (u v : Nat) : Prop := g.Reaches u v ∧ g.Reaches v u

/-- Nodes are in range, and edges connect nodes. -/
structure WellFormed (g : Digraph) : Prop where
  node_lt : ∀ v ∈ g.nodes, v < g.bound
  source_mem : ∀ u v, g.Edge u v → u ∈ g.nodes
  target_mem : ∀ u v, g.Edge u v → v ∈ g.nodes

variable {g : Digraph} {u v w : Nat}

/-- Reaching each other is symmetric. -/
theorem Mutual.symm (h : g.Mutual u v) : g.Mutual v u := ⟨h.2, h.1⟩

/-- Reaching each other is transitive. -/
theorem Mutual.trans (h : g.Mutual u v) (h' : g.Mutual v w) : g.Mutual u w :=
  ⟨h.1.trans h'.1, h'.2.trans h.2⟩

/-- From a node only nodes are reached. -/
theorem WellFormed.reaches_mem (wf : g.WellFormed) (hu : u ∈ g.nodes) (h : g.Reaches u v) :
    v ∈ g.nodes := by
  induction h with
  | refl => exact hu
  | tail _ hedge _ => exact wf.target_mem _ _ hedge

/-- The targets of edges are within the bound. -/
theorem WellFormed.target_lt (wf : g.WellFormed) (h : g.Edge u v) : v < g.bound :=
  wf.node_lt v (wf.target_mem u v h)

/-! ## §2. Entering nodes -/

namespace Search

/-- The search has entered `v`. -/
def Entered (s : Search) (v : Nat) : Prop := s.entered[v]? = some true

/-- How many numbers in range are not entered. -/
def missing (s : Search) : Nat := s.entered.count false

variable {s : Search} {v w : Nat}

/-- A node is skipped if it is out of bounds or has been entered. -/
theorem skips_iff : s.skips v = true ↔ s.entered.size ≤ v ∨ s.Entered v := by
  unfold skips Entered
  cases h : s.entered[v]? with
  | none =>
    have := Array.getElem?_eq_none_iff.1 h
    simp [this]
  | some b =>
    have := (Array.getElem?_eq_some_iff.1 h).1
    simp only [Option.getD_some, Option.some.injEq]
    constructor
    · exact .inr
    · rintro (hle | hb)
      · omega
      · exact hb

theorem enter_size (s : Search) (v : Nat) : (s.enter v).entered.size = s.entered.size := by
  simp [enter]

/-- Entering a node marks it and no other. -/
theorem entered_enter_iff (h : v < s.entered.size) :
    (s.enter v).Entered w ↔ s.Entered w ∨ w = v := by
  unfold Entered enter
  show (s.entered.setIfInBounds v true)[w]? = some true ↔ _
  rw [Array.getElem?_setIfInBounds]
  by_cases hvw : v = w
  · simp [hvw, hvw ▸ h]
  · simp only [if_neg hvw]
    constructor
    · exact .inl
    · rintro (h | rfl)
      · exact h
      · exact absurd rfl hvw

/-- Entering a node leaves one less to enter. -/
theorem missing_enter (h : s.skips v = false) : (s.enter v).missing + 1 = s.missing := by
  have hnot : ¬ (s.entered.size ≤ v ∨ s.Entered v) := by
    rw [← skips_iff, h]
    simp
  have hlt : v < s.entered.size := by
    by_contra hge
    exact hnot (.inl (by omega))
  -- the node is within bounds, so it was skipped only if entered
  have hfalse : s.entered[v] = false := by
    cases hv : s.entered[v] with
    | false => rfl
    | true => exact absurd (.inr (Array.getElem?_eq_some_iff.2 ⟨hlt, hv⟩)) hnot
  unfold missing enter
  have hset : s.entered.setIfInBounds v true = s.entered.set v true := by
    simp [Array.setIfInBounds, hlt]
  show (s.entered.setIfInBounds v true).count false + 1 = s.entered.count false
  rw [hset, Array.count_set]
  have hpos : 0 < s.entered.count false :=
    Array.count_pos_iff.2 (Array.mem_iff_getElem.2 ⟨v, hlt, hfalse⟩)
  simp only [hfalse]
  simp
  omega

theorem start_size (bound : Nat) : (start bound).entered.size = bound := by
  simp [start]

/-- Nothing has been entered to begin with. -/
theorem not_entered_start (bound v : Nat) : ¬ (start bound).Entered v := by
  unfold Entered start
  show (Array.replicate bound false)[v]? ≠ some true
  rw [Array.getElem?_replicate]
  split <;> simp

theorem missing_le (s : Search) : s.missing ≤ s.entered.size := Array.count_le_size

end Search

/-! ## §3. Visits -/

/-- What visiting nodes one after the other does to a search. -/
structure Visited (g : Digraph) (s t : Search) (sent : List Nat) : Prop where
  size : t.entered.size = s.entered.size
  keeps : ∀ x, s.Entered x → t.Entered x
  missing_le : t.missing ≤ s.missing
  left : ∃ new, t.left = new ++ s.left ∧ (∀ x, x ∈ new ↔ t.Entered x ∧ ¬ s.Entered x)
    ∧ (∀ x ∈ new, ∀ y, g.Edge x y → y < s.entered.size → t.Entered y)
    ∧ ∀ x ∈ new, ∃ v ∈ sent, g.Reaches v x
  sent : ∀ v ∈ sent, v < s.entered.size → t.Entered v

namespace Visited

variable {s t r : Search}

theorem nil (g : Digraph) (s : Search) : g.Visited s s [] where
  size := rfl
  keeps _ h := h
  missing_le := le_refl _
  left := ⟨[], rfl, fun x => by simp, by simp, by simp⟩
  sent := by simp

/-- Skipping a node is a visit that does nothing. -/
theorem skipped (g : Digraph) (h : s.skips v = true) : g.Visited s s [v] where
  size := rfl
  keeps _ h := h
  missing_le := le_refl _
  left := ⟨[], rfl, fun x => by simp, by simp, by simp⟩
  sent := by
    intro x hx hlt
    rw [List.mem_singleton.1 hx] at hlt ⊢
    rcases Search.skips_iff.1 h with hge | hv
    · omega
    · exact hv

/-- Visits one after the other are a visit of all their nodes. -/
theorem append {vs ws : List Nat} (h : g.Visited s t vs) (h' : g.Visited t r ws) :
    g.Visited s r (vs ++ ws) where
  size := h'.size.trans h.size
  keeps x hx := h'.keeps x (h.keeps x hx)
  missing_le := le_trans h'.missing_le h.missing_le
  left := by
    obtain ⟨new, hleft, hnew, hclosed, hreach⟩ := h.left
    obtain ⟨new', hleft', hnew', hclosed', hreach'⟩ := h'.left
    -- What was entered is what the second visit entered and before it the first.
    refine ⟨new' ++ new, by rw [hleft', hleft, List.append_assoc], fun x => ?_, ?_, ?_⟩
    · rw [List.mem_append, hnew, hnew']
      constructor
      · rintro (⟨hr, hnt⟩ | ⟨ht, hns⟩)
        · exact ⟨hr, fun hs => hnt (h.keeps x hs)⟩
        · exact ⟨h'.keeps x ht, hns⟩
      · rintro ⟨hr, hns⟩
        by_cases ht : t.Entered x
        · exact .inr ⟨ht, hns⟩
        · exact .inl ⟨hr, ht⟩
    · intro x hx y hxy hy
      rcases List.mem_append.1 hx with hx | hx
      · exact hclosed' x hx y hxy (by rw [h.size]; exact hy)
      · exact h'.keeps y (hclosed x hx y hxy hy)
    · intro x hx
      rcases List.mem_append.1 hx with hx | hx
      · obtain ⟨v, hv, hreach⟩ := hreach' x hx
        exact ⟨v, List.mem_append_right _ hv, hreach⟩
      · obtain ⟨v, hv, hreach⟩ := hreach x hx
        exact ⟨v, List.mem_append_left _ hv, hreach⟩
  sent := by
    intro v hv hlt
    rcases List.mem_append.1 hv with hv | hv
    · exact h'.keeps v (h.sent v hv hlt)
    · exact h'.sent v hv (by rw [h.size]; exact hlt)

/-- Visiting the successors of a node just entered, and then leaving it. -/
theorem around (hskip : s.skips v = false) (h : g.Visited (s.enter v) t (g.successors v)) :
    g.Visited s (t.leave v) [v] := by
  have hnot : ¬ (s.entered.size ≤ v ∨ s.Entered v) := by
    rw [← Search.skips_iff, hskip]
    simp
  have hlt : v < s.entered.size := by
    by_contra hge
    exact hnot (.inl (by omega))
  have hentered (x : Nat) := Search.entered_enter_iff (w := x) hlt
  have hv : t.Entered v := h.keeps v ((hentered v).2 (.inr rfl))
  obtain ⟨new, hleft, hnew, hclosed, hreach⟩ := h.left
  -- Between the two moments `v` was entered, and what the visit of its successors entered.
  have hnewly (x : Nat) : x ∈ v :: new ↔ t.Entered x ∧ ¬ s.Entered x := by
    rw [List.mem_cons, hnew, hentered]
    constructor
    · rintro (rfl | ⟨ht, hns⟩)
      · exact ⟨hv, fun hs => hnot (.inr hs)⟩
      · exact ⟨ht, fun hs => hns (.inl hs)⟩
    · rintro ⟨ht, hns⟩
      by_cases hxv : x = v
      · exact .inl hxv
      · exact .inr ⟨ht, fun hor => hor.elim hns hxv⟩
  exact {
    size := h.size.trans (s.enter_size v)
    keeps := fun x hx => h.keeps x ((hentered x).2 (.inl hx))
    missing_le := by
      have hmissing := Search.missing_enter hskip
      have hle := h.missing_le
      show t.missing ≤ s.missing
      omega
    left := by
      refine ⟨v :: new, ?_, hnewly, ?_, ?_⟩
      · show v :: t.left = v :: new ++ s.left
        rw [hleft]
        rfl
      · intro x hx y hxy hy
        have hy' : y < (s.enter v).entered.size := by rwa [s.enter_size]
        rcases List.mem_cons.1 hx with rfl | hx
        · exact h.sent y hxy hy'
        · exact hclosed x hx y hxy hy'
      · -- what was entered meanwhile was reached from a successor
        intro x hx
        refine ⟨v, List.mem_singleton_self v, ?_⟩
        rcases List.mem_cons.1 hx with rfl | hx
        · exact .refl
        · obtain ⟨w, hw, hwx⟩ := hreach x hx
          exact .head hw hwx
    sent := by
      intro x hx _
      rw [List.mem_singleton.1 hx]
      exact hv }

end Visited

/-- As long as the depth exceeds the number of nodes not entered, it bounds
    nothing. -/
theorem visit_visited (g : Digraph) (depth : Nat) (s : Search) (v : Nat)
    (h : s.missing < depth) : g.Visited s (g.visit depth s v) [v] := by
  induction depth generalizing s v with
  | zero => omega
  | succ depth ih =>
    unfold visit
    split
    next hskip => exact .skipped g hskip
    next hskip =>
      have hskip : s.skips v = false := by simpa using hskip
      have hmissing := Search.missing_enter hskip
      -- entering a node leaves one less to enter, so the limit covers all successors
      have hall (ws : List Nat) (r : Search) (hr : r.missing < depth) :
          g.Visited r (ws.foldl (g.visit depth) r) ws := by
        induction ws generalizing r with
        | nil => exact .nil g r
        | cons w ws ihws =>
          have hw := ih r w hr
          have hws := ihws (g.visit depth r w) (lt_of_le_of_lt hw.missing_le hr)
          exact hw.append hws
      exact Visited.around hskip (hall (g.successors v) (s.enter v) (by omega))

/-- With depth for the missing nodes, visiting a list of nodes is a visit of them. -/
theorem visits_visited (g : Digraph) (depth : Nat) (vs : List Nat) (s : Search)
    (h : s.missing < depth) : g.Visited s (vs.foldl (g.visit depth) s) vs := by
  induction vs generalizing s with
  | nil => exact .nil g s
  | cons v vs ih =>
    have hv := g.visit_visited depth s v h
    exact hv.append (ih (g.visit depth s v) (lt_of_le_of_lt hv.missing_le h))

/-- Visiting all nodes from the start is a visit of them. -/
theorem visitAll_visited (g : Digraph) (vs : List Nat) :
    g.Visited (Search.start g.bound) (g.visitAll vs) vs := by
  refine g.visits_visited (g.bound + 1) vs _ ?_
  have hle := (Search.start g.bound).missing_le
  rw [Search.start_size] at hle
  omega

/-- A search from a node enters what can be reached from it. -/
theorem reach_entered_iff (wf : g.WellFormed) (hv : v < g.bound) :
    (g.reach v).Entered w ↔ g.Reaches v w := by
  have hvisited := g.visitAll_visited [v]
  obtain ⟨new, -, hnew, hclosed, hreach⟩ := hvisited.left
  have hentered (x : Nat) : (g.reach v).Entered x ↔ x ∈ new := by
    rw [hnew]
    exact ⟨fun h => ⟨h, Search.not_entered_start _ _⟩, And.left⟩
  rw [hentered]
  -- The search enters what is reached, and what it entered is closed under edges.
  constructor
  · intro hw
    obtain ⟨x, hx, hxw⟩ := hreach w hw
    rwa [List.mem_singleton.1 hx] at hxw
  · intro hvw
    induction hvw with
    | refl =>
      exact (hentered v).1 (hvisited.sent v List.mem_cons_self
        (by rw [Search.start_size]; exact hv))
    | tail _ hedge ih =>
      exact (hentered _).1 (hclosed _ ih _ hedge
        (by rw [Search.start_size]; exact wf.target_lt hedge))

end Digraph
end LinearTime
