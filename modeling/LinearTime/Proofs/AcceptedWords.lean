/-
  LinearTime.Proofs.AcceptedWords — acceptance is the existence of an accepting run.

  The places of the product of an automaton with a lasso word are pairs of a
  state and a position.  Reading the infinite word passes the positions
  `0, 1, …` and, from the end of the spoke on, those of the cycle again and
  again, so a run of the automaton on the word is a run of the product.  That
  one is accepting if it can reach a component with moves of all marks.

  Main results:
    * `Automaton.Accepting` — accepting runs, as the textbook has them.
    * `accepts_iff` — acceptance of a lasso word is the existence of one.
-/

import LinearTime.Automaton.Product
import LinearTime.Proofs.LassoTruth
import LinearTime.Proofs.Walks

namespace LinearTime

variable {α : Type}

/-! ## §1. Positions -/

namespace Lasso

/-- The position that the infinite word is at after `n` letters. -/
def position (w : Lasso α) : Nat → Nat
  | 0 => 0
  | n + 1 => w.successor (w.position n)

theorem successor_lt (w : Lasso α) (i : Nat) : w.successor i < w.size := by
  have hpos := w.cycle_pos
  unfold successor
  split
  · assumption
  · unfold size
    omega

theorem position_lt (w : Lasso α) (n : Nat) : w.position n < w.size := by
  cases n with
  | zero => exact w.size_pos
  | succ n => exact w.successor_lt _

/-- Positions fall behind by whole cycles. -/
theorem exists_position (w : Lasso α) (n : Nat) :
    ∃ k, n = w.position n + k * w.cycle.length ∧ (k = 0 ∨ w.spoke.length ≤ w.position n) := by
  induction n with
  | zero => exact ⟨0, by simp [position]⟩
  | succ n ih =>
    obtain ⟨k, hk, hspoke⟩ := ih
    have hlt := w.position_lt n
    have hsize : w.size = w.spoke.length + w.cycle.length := rfl
    show ∃ k, n + 1 = w.successor (w.position n) + _ ∧ _
    unfold successor
    -- At the end of the word one more round of the cycle has been read.
    by_cases h : w.position n + 1 < w.size
    · rw [if_pos h]
      refine ⟨k, by omega, hspoke.imp_right fun hle => ?_⟩
      show w.spoke.length ≤ w.successor (w.position n)
      unfold successor
      rw [if_pos h]
      omega
    · rw [if_neg h]
      refine ⟨k + 1, ?_, .inr ?_⟩
      · rw [Nat.add_mul]
        omega
      · show w.spoke.length ≤ w.successor (w.position n)
        unfold successor
        rw [if_neg h]

/-- The first positions are the places of the word written once. -/
theorem position_of_lt (w : Lasso α) {n : Nat} (h : n < w.size) : w.position n = n := by
  obtain ⟨k, hk, rfl | hspoke⟩ := w.exists_position n
  · omega
  · cases k with
    | zero => omega
    | succ k =>
      rw [Nat.succ_mul] at hk
      unfold size at h
      omega

/-- From the end of the spoke on the positions repeat. -/
theorem position_add_cycle (w : Lasso α) {n : Nat} (h : w.spoke.length ≤ n) :
    w.position (n + w.cycle.length) = w.position n := by
  have hpos := w.cycle_pos
  induction n, h using Nat.le_induction with
  | base =>
    have hsize : w.size = w.spoke.length + w.cycle.length := rfl
    have hlast : w.spoke.length + w.cycle.length = w.size - 1 + 1 := by omega
    calc w.position (w.spoke.length + w.cycle.length)
        = w.successor (w.position (w.size - 1)) := by rw [hlast]; rfl
      _ = w.successor (w.size - 1) := by rw [w.position_of_lt (by omega)]
      _ = w.spoke.length := if_neg (by omega)
      _ = w.position w.spoke.length := (w.position_of_lt (by omega)).symm
  | succ n _ ih =>
    rw [Nat.add_right_comm]
    exact congrArg w.successor ih

/-- The letter at a position of a lasso is the letter at the place it falls on. -/
theorem nth_position (w : Lasso α) (n : Nat) : w.nth (w.position n) = w.nth n := by
  obtain ⟨k, hk, rfl | hspoke⟩ := w.exists_position n
  · rw [Nat.zero_mul, Nat.add_zero] at hk
    rw [← hk]
  · rw [← w.nth_add_mul_cycle hspoke k, ← hk]

end Lasso

namespace Automaton

/-! ## §2. Places and moves -/

/-- Transitions lead to states, and there is an initial one. -/
structure WellFormed (a : Automaton α) : Prop where
  pos : 0 < a.states.length
  target_lt : ∀ q, ∀ t ∈ a.transitionsOf q, t.target < a.states.length

/-- An infinite run on the word `v` that takes transitions of every acceptance
    set again and again. -/
structure Accepting [BEq α] (a : Automaton α) (v : Nat → Valuation α) (q : Nat → Nat)
    (t : Nat → Transition α) : Prop where
  start : q 0 = a.initial
  taken : ∀ n, t n ∈ a.transitionsOf (q n)
  enabled : ∀ n, (t n).guard.enabled (v n) = true
  next : ∀ n, q (n + 1) = (t n).target
  again : ∀ k < a.acceptanceSets, Moves.Often t fun t => k ∈ t.accepting

/-- A number is the place of one pair only. -/
theorem place_inj {n p q i j : Nat} (hi : i < n) (hj : j < n) (h : place n p i = place n q j) :
    p = q ∧ i = j := by
  unfold place at h
  have hmod : i = j := by
    have hp := Nat.mul_add_mod_of_lt (a := p) hi
    have hq := Nat.mul_add_mod_of_lt (a := q) hj
    rw [← hp, h, hq]
  subst hmod
  have hpos : 0 < n := by omega
  exact ⟨Nat.eq_of_mul_eq_mul_right hpos (by omega), rfl⟩

/-- Every number below the product is the place of a pair. -/
theorem exists_place {n x m : Nat} (hn : 0 < n) (hx : x < m * n) :
    ∃ q i, q < m ∧ i < n ∧ x = place n q i := by
  refine ⟨x / n, x % n, Nat.div_lt_of_lt_mul (by rwa [Nat.mul_comm]), Nat.mod_lt _ hn, ?_⟩
  unfold place
  rw [Nat.mul_comm]
  exact (Nat.div_add_mod x n).symm

theorem place_lt {n q i m : Nat} (hq : q < m) (hi : i < n) : place n q i < m * n := by
  unfold place
  calc q * n + i < q * n + n := by omega
    _ = (q + 1) * n := by rw [Nat.add_mul, Nat.one_mul]
    _ ≤ m * n := Nat.mul_le_mul_right n hq

/-- Blocks of one length, one after the other. -/
theorem getElem?_flatMap_block {β γ : Type} {f : β → List γ} {n : Nat}
    (hf : ∀ b, (f b).length = n) (bs : List β) {q i : Nat} (hi : i < n) :
    (bs.flatMap f)[q * n + i]? = bs[q]?.bind fun b => (f b)[i]? := by
  induction bs generalizing q with
  | nil => simp
  | cons b bs ih =>
    rw [List.flatMap_cons]
    -- the first block, or the others behind its `n` elements
    cases q with
    | zero =>
      rw [Nat.zero_mul, Nat.zero_add, List.getElem?_append_left (by rw [hf]; exact hi)]
      rfl
    | succ q =>
      have hle : (f b).length ≤ (q + 1) * n + i := by
        rw [hf, Nat.add_mul]
        omega
      rw [List.getElem?_append_right hle, hf,
        show (q + 1) * n + i - n = q * n + i by rw [Nat.add_mul]; omega, ih]
      rfl

variable [BEq α] {a : Automaton α} {w : Lasso α}

omit [BEq α] in
/-- The readings of a lasso are its letters, each with the position read next. -/
theorem readings_eq (w : Lasso α) :
    readings w = (List.range w.size).map fun i => (w.nth i, w.successor i) := by
  have hshift := w.shift_eq id
  rw [List.map_id] at hshift
  unfold readings
  rw [hshift, w.letters_eq, List.zip_map']
  rfl

theorem moveTable_size (a : Automaton α) (w : Lasso α) :
    (a.moveTable w).size = a.states.length * w.size := by
  unfold moveTable
  simp [readings_eq]

/-- The product's moves at a place are those of the state, reading the letter at the position. -/
theorem moveTable_place (a : Automaton α) (w : Lasso α) {q i : Nat} (hi : i < w.size) :
    (a.moveTable w)[place w.size q i]?
      = a.states[q]?.map fun s => moves w.size s (w.nth i, w.successor i) := by
  have hlen : (readings w).length = w.size := by simp [readings_eq]
  unfold moveTable place
  rw [List.getElem?_toArray, hlen, getElem?_flatMap_block (n := w.size) (by simp [hlen]) _ hi]
  cases a.states[q]? with
  | none => rfl
  | some s =>
    show ((readings w).map (moves w.size s))[i]? = _
    rw [readings_eq, List.map_map, List.getElem?_map, List.getElem?_range hi]
    rfl

/-- The moves of the product: a state, a position and a transition. -/
def productMoves (a : Automaton α) (w : Lasso α) : Moves (Nat × Nat × Transition α) where
  allowed e := e.2.1 < w.size ∧ e.2.2 ∈ a.transitionsOf e.1
    ∧ e.2.2.guard.enabled (w.nth e.2.1) = true
  source e := place w.size e.1 e.2.1
  target e := place w.size e.2.2.target (w.successor e.2.1)

/-- The moves listed for a place are the moves from there. -/
theorem mem_moveTable {x y : Nat} {m : MarkSet} :
    (y, m) ∈ ((a.moveTable w)[x]?.getD [])
      ↔ ∃ e, (a.productMoves w).allowed e ∧ (a.productMoves w).source e = x
          ∧ (a.productMoves w).target e = y ∧ e.2.2.accepting = m := by
  constructor
  · intro h
    have hx : x < a.states.length * w.size := by
      rw [← a.moveTable_size w]
      by_contra hge
      rw [Array.getElem?_eq_none (by omega)] at h
      exact absurd h List.not_mem_nil
    -- every row belongs to a state and a position
    obtain ⟨q, i, hq, hi, rfl⟩ := exists_place w.size_pos hx
    rw [a.moveTable_place w hi, List.getElem?_eq_getElem hq] at h
    simp only [Option.map_some, Option.getD_some, moves, List.mem_map, List.mem_filter,
      Prod.mk.injEq] at h
    obtain ⟨t, ⟨ht, henabled⟩, rfl, rfl⟩ := h
    refine ⟨(q, i, t), ⟨hi, ?_, henabled⟩, rfl, rfl, rfl⟩
    unfold transitionsOf
    rw [List.getElem?_eq_getElem hq]
    exact ht
  · rintro ⟨⟨q, i, t⟩, ⟨hi, ht, henabled⟩, rfl, rfl, rfl⟩
    show (place w.size t.target (w.successor i), t.accepting)
      ∈ (a.moveTable w)[place w.size q i]?.getD []
    rw [a.moveTable_place w hi]
    unfold transitionsOf at ht
    cases hq : a.states[q]? with
    | none =>
      rw [hq] at ht
      exact absurd ht List.not_mem_nil
    | some s =>
      rw [hq] at ht
      simp only [Option.map_some, Option.getD_some, moves, List.mem_map, List.mem_filter]
      exact ⟨t, ⟨ht, henabled⟩, rfl⟩

/-- The product digraph has the edges of the product's moves. -/
theorem product_edge (a : Automaton α) (w : Lasso α) :
    (product (a.moveTable w)).Edge = (a.productMoves w).Edge := by
  funext x y
  refine propext ?_
  show y ∈ ((a.moveTable w)[x]?.getD []).map (·.1) ↔ _
  rw [List.mem_map]
  constructor
  · rintro ⟨⟨y, m⟩, hmove, rfl⟩
    obtain ⟨e, he, hsource, htarget, -⟩ := mem_moveTable.1 hmove
    exact ⟨e, he, hsource, htarget⟩
  · rintro ⟨e, he, hsource, htarget⟩
    exact ⟨(y, e.2.2.accepting), mem_moveTable.2 ⟨e, he, hsource, htarget, rfl⟩, rfl⟩

theorem product_reaches (a : Automaton α) (w : Lasso α) :
    (product (a.moveTable w)).Reaches = (a.productMoves w).Reaches := by
  unfold Digraph.Reaches Moves.Reaches
  rw [product_edge]

/-- The product digraph has the components of the product's moves. -/
theorem product_mutual (a : Automaton α) (w : Lasso α) :
    (product (a.moveTable w)).Mutual = (a.productMoves w).Mutual := by
  unfold Digraph.Mutual Moves.Mutual
  rw [product_reaches]

omit [BEq α] in
/-- Only states of the automaton have transitions. -/
theorem transitionsOf_lt {q : Nat} {t : Transition α} (h : t ∈ a.transitionsOf q) :
    q < a.states.length := by
  by_contra hge
  unfold transitionsOf at h
  rw [List.getElem?_eq_none (by omega)] at h
  exact absurd h List.not_mem_nil

/-- The product has a node for every pair of a state and a position. -/
theorem product_mem_nodes {x : Nat} :
    x ∈ (product (a.moveTable w)).nodes ↔ x < a.states.length * w.size := by
  show x ∈ List.range (a.moveTable w).size ↔ _
  rw [List.mem_range, moveTable_size]

theorem productMoves_source_lt {e : Nat × Nat × Transition α}
    (he : (a.productMoves w).allowed e) :
    (a.productMoves w).source e < a.states.length * w.size :=
  place_lt (transitionsOf_lt he.2.1) he.1

/-- The product of a well-formed automaton is a well-formed digraph. -/
theorem product_wellFormed (wf : a.WellFormed) (w : Lasso α) :
    (product (a.moveTable w)).WellFormed where
  node_lt _ h := List.mem_range.1 h
  source_mem x y h := by
    rw [product_edge] at h
    obtain ⟨e, he, rfl, -⟩ := h
    exact product_mem_nodes.2 (productMoves_source_lt he)
  target_mem x y h := by
    rw [product_edge] at h
    obtain ⟨e, he, -, rfl⟩ := h
    exact product_mem_nodes.2 (place_lt (wf.target_lt _ _ he.2.1) (w.successor_lt _))

/-! ## §3. Runs -/

/-- Runs on a word are runs of the product, seen together with the positions. -/
theorem exists_accepting_iff (a : Automaton α) (w : Lasso α) :
    (∃ q t, a.Accepting w.nth q t)
      ↔ ∃ ρ, (a.productMoves w).Run (place w.size a.initial 0) ρ
          ∧ ∀ k < a.acceptanceSets, Moves.Often ρ fun e => k ∈ e.2.2.accepting := by
  constructor
  -- A run of the automaton, together with the positions read, moves through the product.
  · rintro ⟨q, t, h⟩
    refine ⟨fun n => (q n, w.position n, t n), ⟨?_, fun n => ?_, fun n => ?_⟩, h.again⟩
    · show place w.size (q 0) 0 = _
      rw [h.start]
    · refine ⟨w.position_lt n, h.taken n, ?_⟩
      show (t n).guard.enabled (w.nth (w.position n)) = true
      rw [w.nth_position]
      exact h.enabled n
    · show place w.size (q (n + 1)) (w.position (n + 1)) = _
      rw [h.next]
      rfl
  · rintro ⟨ρ, hρ, hagain⟩
    -- The other way round states and positions are told apart by the places.
    have hinit : (ρ 0).1 = a.initial ∧ (ρ 0).2.1 = 0 :=
      place_inj (hρ.allowed 0).1 w.size_pos hρ.start
    have hnext (n : Nat) : (ρ (n + 1)).1 = (ρ n).2.2.target
        ∧ (ρ (n + 1)).2.1 = w.successor (ρ n).2.1 :=
      place_inj (hρ.allowed (n + 1)).1 (w.successor_lt _) (hρ.next n)
    have hposition (n : Nat) : (ρ n).2.1 = w.position n := by
      induction n with
      | zero => exact hinit.2
      | succ n ih =>
        rw [(hnext n).2, ih]
        rfl
    refine ⟨fun n => (ρ n).1, fun n => (ρ n).2.2, hinit.1, fun n => (hρ.allowed n).2.1,
      fun n => ?_, fun n => (hnext n).1, hagain⟩
    have henabled := (hρ.allowed n).2.2
    rwa [hposition, w.nth_position] at henabled

/-- The marks on the interior moves of a component. -/
theorem mem_interiorMarks (wf : a.WellFormed) {c : List Nat} {m : MarkSet} {u : Nat}
    (hc : c ∈ (product (a.moveTable w)).components) (hu : u ∈ c) :
    m ∈ interiorMarks (a.moveTable w)
        ((product (a.moveTable w)).homes (product (a.moveTable w)).components) c
      ↔ ∃ e, (a.productMoves w).Inside u e ∧ e.2.2.accepting = m := by
  have hwf := product_wellFormed wf w
  have hclassified := Digraph.components_classified hwf
  unfold interiorMarks
  simp only [List.mem_flatMap, List.mem_map, List.mem_filter, beq_iff_eq]
  constructor
  -- The home of the target is that of the source: the move stays in the component.
  · rintro ⟨v, hv, ⟨y, m⟩, ⟨hmove, hhome⟩, rfl⟩
    have hvnode := hclassified.mem_nodes hwf hc hv
    obtain ⟨e, he, rfl, rfl, hm⟩ := mem_moveTable.1 hmove
    have hynode := hwf.target_mem _ _ (by rw [product_edge]; exact ⟨e, he, rfl, rfl⟩)
    have hstays := (Digraph.homes_eq_iff hwf hynode hvnode).1 hhome
    have huv := hclassified.mutual_of_mem hc hu hv
    rw [product_mutual] at hstays huv
    exact ⟨e, ⟨he, huv, huv.trans hstays.symm⟩, hm⟩
  · rintro ⟨e, he, rfl⟩
    have hsource := he.source
    have htarget := he.target
    rw [← product_mutual] at hsource htarget
    have hv := hclassified.mem_of_mutual hc hu hsource
    have hy := hclassified.mem_of_mutual hc hu htarget
    refine ⟨_, hv, ((a.productMoves w).target e, e.2.2.accepting),
      ⟨mem_moveTable.2 ⟨e, he.allowed, rfl, rfl, rfl⟩, ?_⟩, rfl⟩
    exact (Digraph.homes_eq_iff hwf (hclassified.mem_nodes hwf hc hy)
      (hclassified.mem_nodes hwf hc hv)).2 (hsource.symm.trans htarget).symm

/-- A lasso word is accepted if there is an accepting run on it. -/
theorem accepts_iff (wf : a.WellFormed) (w : Lasso α) :
    a.accepts w = true ↔ ∃ q t, a.Accepting w.nth q t := by
  have hwf := product_wellFormed wf w
  have hclassified := Digraph.components_classified hwf
  have hstart : place w.size a.initial 0 < a.states.length * w.size :=
    place_lt wf.pos w.size_pos
  -- The nodes entered from the start are those that the product reaches.
  have hreached (v : Nat) : (((product (a.moveTable w)).reach
      (place w.size a.initial 0)).entered[v]?.getD false = true)
        ↔ (a.productMoves w).Reaches (place w.size a.initial 0) v := by
    have hiff := Digraph.reach_entered_iff (w := v) hwf
      (v := place w.size a.initial 0) (hwf.node_lt _ (product_mem_nodes.2 hstart))
    rw [product_reaches] at hiff
    rw [← hiff]
    unfold Digraph.Search.Entered
    cases (((product (a.moveTable w)).reach (place w.size a.initial 0)).entered[v]?) with
    | none => simp
    | some b => simp
  -- An accepting run is a reachable class with moves of every mark; classes are components.
  rw [exists_accepting_iff, Moves.exists_run_iff (fun e he => productMoves_source_lt he)]
  unfold accepts
  simp only [List.any_eq_true, Bool.and_eq_true, Bool.not_eq_true', MarkSet.covers_iff,
    MarkSet.mem_unionAll, hreached]
  constructor
  · rintro ⟨c, hc, ⟨⟨u, hu, hreach⟩, hne⟩, hcovers⟩
    refine ⟨u, hreach, ?_, fun k hk => ?_⟩
    · obtain ⟨m, hm⟩ := List.exists_mem_of_ne_nil _ (List.isEmpty_eq_false_iff.1 hne)
      obtain ⟨e, he, -⟩ := (mem_interiorMarks wf hc hu).1 hm
      exact ⟨e, he⟩
    · obtain ⟨m, hm, hkm⟩ := hcovers k hk
      obtain ⟨e, he, rfl⟩ := (mem_interiorMarks wf hc hu).1 hm
      exact ⟨e, he, hkm⟩
  · rintro ⟨u, hreach, hcore⟩
    have hreach' := hreach
    rw [← product_reaches] at hreach'
    obtain ⟨c, hc, hu⟩ := hclassified.covers u
      (hwf.reaches_mem (product_mem_nodes.2 hstart) hreach')
    refine ⟨c, hc, ⟨⟨u, hu, hreach⟩, ?_⟩, fun k hk => ?_⟩
    · obtain ⟨e, he⟩ := hcore.stays
      exact List.isEmpty_eq_false_iff.2
        (List.ne_nil_of_mem ((mem_interiorMarks wf hc hu).2 ⟨e, he, rfl⟩))
    · obtain ⟨e, he, hk⟩ := hcore.all k hk
      exact ⟨_, (mem_interiorMarks wf hc hu).2 ⟨e, he, rfl⟩, hk⟩

end Automaton
end LinearTime
