/-
  LinearTime.Proofs.Rounds — evaluation in rounds.

  The value of a temporal operator can also be found without sweeping: all
  positions start with a guess, and in every round each position gets the value
  that the expansion law gives there, the next position having the value it has
  so far.  When a round changes nothing, the values are those wanted.

  Laws are monotone, so a value that left the guess never comes back to it.
  Therefore

      a round that changes something moves one more position, and there are no
      more rounds than positions, the one that changes nothing aside;

      what left the guess after some rounds is not the guess in any solution of
      the law, so the values settled on are the extreme solution.

  Main results:
    * `fixpoint?_eq_solve` — rounds settle on what the two sweeps give, for every
      monotone law.
    * `evaluation_is_truth` — evaluation, in rounds or not, is the truth on the
      infinite word.
-/

import LinearTime.Proofs.AcceptedWords

namespace LinearTime
namespace Lasso

variable {α : Type}

/-! ## §1. Rounds -/

/-- Every position gets the value that the law gives there if the next position
    has the value it has so far. -/
def round (w : Lasso α) (law : Law) (operands : List (Bool × Bool)) (values : List Bool) :
    List Bool :=
  (operands.zip (w.shift values)).map fun (p, later) => law p later

/-- Rounds until one changes nothing, unless that takes more than so many. -/
def settle? (w : Lasso α) (law : Law) (operands : List (Bool × Bool)) :
    Nat → List Bool → Option (List Bool)
  | 0, _ => none
  | rounds + 1, values =>
    let next := w.round law operands values
    if next = values then some values else w.settle? law operands rounds next

/-- What rounds settle on if all positions start with a guess. -/
def fixpoint? (w : Lasso α) (guess : Bool) (law : Law) (operands : List (Bool × Bool)) :
    Option (List Bool) :=
  w.settle? law operands (w.size + 1) (List.replicate w.size guess)

/-- The values of an operator at all positions, those of temporal operators found
    in rounds. -/
def combineInRounds? (w : Lasso α) (op : BinaryOp) (lefts rights : List Bool) :
    Option (List Bool) :=
  let operands := lefts.zip rights
  match op with
  | .conj => some (operands.map fun (l, r) => l && r)
  | .disj => some (operands.map fun (l, r) => l || r)
  | .strongUntil => w.fixpoint? false (fun (l, r) later => r || (l && later)) operands
  | .release => w.fixpoint? true (fun (l, r) later => r && (l || later)) operands
  | .weakUntil => w.fixpoint? true (fun (l, r) later => r || (l && later)) operands

/-- The truth values at every position, found in rounds. -/
def truthInRounds? [BEq α] (w : Lasso α) : Formula α → Option (List Bool)
  | .next _ f => (w.truthInRounds? f).map w.shift
  | .binary _ op l r => do
    let lefts ← w.truthInRounds? l
    let rights ← w.truthInRounds? r
    w.combineInRounds? op lefts rights
  | f => some (w.literalTruth f)

/-! ## §2. Values that left the guess -/

/-- A later value that is true makes no earlier one false. -/
def Law.Monotone (law : Law) : Prop := ∀ p, law p false = true → law p true = true

/-- If the law leaves the guess where the next value is the guess, then it does so
    whatever the next value. -/
theorem Law.Monotone.leaves {law : Law} (h : law.Monotone) {guess : Bool} {p : Bool × Bool}
    (hleaves : law p guess ≠ guess) (later : Bool) : law p later ≠ guess := by
  have hp := h p
  cases guess <;> cases later <;> simp_all

/-- The value at a position after so many rounds. -/
def valueAfter (w : Lasso α) (law : Law) (p : Nat → Bool × Bool) (guess : Bool) : Nat → Nat → Bool
  | 0, _ => guess
  | n + 1, i => law (p i) (w.valueAfter law p guess n (w.successor i))

variable {w : Lasso α} {law : Law} {p : Nat → Bool × Bool} {guess : Bool}

theorem round_eq (n : Nat) :
    w.round law ((List.range w.size).map p)
        ((List.range w.size).map (w.valueAfter law p guess n))
      = (List.range w.size).map (w.valueAfter law p guess (n + 1)) := by
  unfold round
  rw [w.shift_eq, List.zip_map', List.map_map]
  rfl

theorem valueAfter_leaves (hlaw : law.Monotone) {n i : Nat}
    (h : w.valueAfter law p guess n i ≠ guess) : w.valueAfter law p guess (n + 1) i ≠ guess := by
  induction n generalizing i with
  | zero => exact absurd rfl h
  | succ n ih =>
    show law (p i) (w.valueAfter law p guess (n + 1) (w.successor i)) ≠ guess
    by_cases hlater : w.valueAfter law p guess n (w.successor i) = guess
    · have hleaves : law (p i) guess ≠ guess := by
        intro hstays
        exact h (by rw [valueAfter, hlater, hstays])
      exact hlaw.leaves hleaves _
    · -- the next value had left the guess before, so it is the same as before
      have hsame := (Bool.eq_not.2 (ih hlater)).trans (Bool.eq_not.2 hlater).symm
      rw [hsame]
      exact h

/-- How many positions have left the guess after so many rounds. -/
def moved (w : Lasso α) (law : Law) (p : Nat → Bool × Bool) (guess : Bool) (n : Nat) : Nat :=
  ((Finset.range w.size).filter fun i => w.valueAfter law p guess n i ≠ guess).card

theorem moved_le (w : Lasso α) (law : Law) (p : Nat → Bool × Bool) (guess : Bool) (n : Nat) :
    w.moved law p guess n ≤ w.size := by
  refine (Finset.card_filter_le _ _).trans ?_
  rw [Finset.card_range]

/-- A round that changes something moves one more position. -/
theorem moved_lt (hlaw : law.Monotone) {n i : Nat} (hi : i < w.size)
    (hchange : w.valueAfter law p guess (n + 1) i ≠ w.valueAfter law p guess n i) :
    w.moved law p guess n < w.moved law p guess (n + 1) := by
  have hbefore : w.valueAfter law p guess n i = guess := by
    by_contra hleft
    exact hchange ((Bool.eq_not.2 (valueAfter_leaves hlaw hleft)).trans (Bool.eq_not.2 hleft).symm)
  rw [hbefore] at hchange
  refine Finset.card_lt_card ((Finset.ssubset_iff_of_subset ?_).2 ⟨i, ?_, ?_⟩)
  · intro j hj
    obtain ⟨hjlt, hleft⟩ := Finset.mem_filter.1 hj
    exact Finset.mem_filter.2 ⟨hjlt, valueAfter_leaves hlaw hleft⟩
  · exact Finset.mem_filter.2 ⟨Finset.mem_range.2 hi, hchange⟩
  · intro hmem
    exact (Finset.mem_filter.1 hmem).2 hbefore

/-- With one round more than there are positions left to move, the rounds settle. -/
theorem exists_settled (w : Lasso α) (hlaw : law.Monotone) (p : Nat → Bool × Bool) (guess : Bool)
    (rounds : Nat) :
    ∀ n, w.size < rounds + w.moved law p guess n →
      ∃ m, w.settle? law ((List.range w.size).map p) rounds
          ((List.range w.size).map (w.valueAfter law p guess n))
            = some ((List.range w.size).map (w.valueAfter law p guess m))
        ∧ ∀ i < w.size, w.valueAfter law p guess (m + 1) i = w.valueAfter law p guess m i := by
  induction rounds with
  | zero =>
    intro n hfuel
    have hle := w.moved_le law p guess n
    omega
  | succ rounds ih =>
    intro n hfuel
    unfold settle?
    dsimp only
    rw [round_eq]
    by_cases hsame : (List.range w.size).map (w.valueAfter law p guess (n + 1))
        = (List.range w.size).map (w.valueAfter law p guess n)
    · refine ⟨n, if_pos hsame, fun i hi => ?_⟩
      exact List.map_inj_left.1 hsame i (List.mem_range.2 hi)
    -- Another round that changes a value has moved one more for good.
    · obtain ⟨i, hi, hchange⟩ : ∃ i < w.size,
          w.valueAfter law p guess (n + 1) i ≠ w.valueAfter law p guess n i := by
        by_contra hnone
        push Not at hnone
        exact hsame (List.map_congr_left fun i hi => hnone i (List.mem_range.1 hi))
      have hmore := moved_lt hlaw hi hchange
      obtain ⟨m, hm, hsettled⟩ := ih (n + 1) (by omega)
      exact ⟨m, (if_neg hsame).trans hm, hsettled⟩

/-! ## §3. What the rounds settle on -/

/-- What left the guess after some rounds is not the guess in any solution. -/
theorem solution_leaves (hlaw : law.Monotone) {y : Nat → Bool} {start : Nat}
    (hy : ∀ i, y i = law (p (w.position (start + i))) (y (i + 1))) (n i : Nat)
    (h : w.valueAfter law p guess n (w.position (start + i)) ≠ guess) : y i ≠ guess := by
  induction n generalizing i with
  | zero => exact absurd rfl h
  | succ n ih =>
    replace h : law (p (w.position (start + i)))
        (w.valueAfter law p guess n (w.position (start + (i + 1)))) ≠ guess := h
    rw [hy]
    by_cases hlater : w.valueAfter law p guess n (w.position (start + (i + 1))) = guess
    · rw [hlater] at h
      exact hlaw.leaves h _
    · have hsame := (Bool.eq_not.2 (ih (i + 1) hlater)).trans (Bool.eq_not.2 hlater).symm
      rw [hsame]
      exact h

/-- Rounds settle, and on what sweeping gives. -/
theorem fixpoint?_eq_solve (w : Lasso α) (hlaw : law.Monotone) (guess : Bool)
    {operands : List (Bool × Bool)} (hlength : operands.length = w.size) :
    w.fixpoint? guess law operands = some (w.solve guess law operands) := by
  obtain ⟨p, rfl⟩ : ∃ p : Nat → Bool × Bool, operands = (List.range w.size).map p := by
    refine ⟨fun i => operands[i]?.getD (false, false), ?_⟩
    apply List.ext_getElem
    · rw [hlength, List.length_map, List.length_range]
    · intro i hi _
      rw [List.getElem_map, List.getElem_range, List.getElem?_eq_getElem hi]
      rfl
  have hstart : List.replicate w.size guess
      = (List.range w.size).map (w.valueAfter law p guess 0) := by
    show _ = (List.range w.size).map fun _ => guess
    rw [List.map_const', List.length_range]
  obtain ⟨m, hm, hsettled⟩ := w.exists_settled hlaw p guess (w.size + 1) 0 (by omega)
  unfold fixpoint?
  rw [hstart, hm]
  -- the values settled on, along the infinite word
  let x (i : Nat) : Bool := w.valueAfter law p guess m (w.position i)
  have hsolves (i : Nat) : x i = law (p (w.position i)) (x (i + 1)) :=
    (hsettled _ (w.position_lt i)).symm
  have hsolve : w.solve guess law ((List.range w.size).map fun i => p (w.position i))
      = (List.range w.size).map x := by
    apply w.solve_eq hsolves
    · intro i hi
      rw [w.position_add_cycle hi]
    · show w.valueAfter law p guess m _ = w.valueAfter law p guess m _
      rw [w.position_add_cycle (le_refl _)]
    · intro y hy hguess
      by_contra hleft
      exact solution_leaves hlaw hy m 0 hleft hguess
  have hfirst {β : Type} (f : Nat → β) :
      (List.range w.size).map (fun i => f (w.position i)) = (List.range w.size).map f :=
    List.map_congr_left fun i hi => by rw [w.position_of_lt (List.mem_range.1 hi)]
  rw [hfirst p] at hsolve
  rw [hsolve]
  exact congrArg some (hfirst (w.valueAfter law p guess m)).symm

theorem combineInRounds?_eq (w : Lasso α) (op : BinaryOp) {lefts rights : List Bool}
    (hlefts : lefts.length = w.size) (hrights : rights.length = w.size) :
    w.combineInRounds? op lefts rights = some (w.combine op lefts rights) := by
  have hlength : (lefts.zip rights).length = w.size := by
    rw [List.length_zip, hlefts, hrights, Nat.min_self]
  unfold combineInRounds? combine
  cases op with
  | conj => rfl
  | disj => rfl
  | strongUntil => exact w.fixpoint?_eq_solve (by unfold Law.Monotone; decide) false hlength
  | release => exact w.fixpoint?_eq_solve (by unfold Law.Monotone; decide) true hlength
  | weakUntil => exact w.fixpoint?_eq_solve (by unfold Law.Monotone; decide) true hlength

/-! ## §4. Truth -/

variable [BEq α]

theorem length_truth (w : Lasso α) (f : Formula α) : (w.truth f).length = w.size := by
  rw [w.truth_eq, List.length_map, List.length_range]

/-- The rounds settle for every operator in a formula. -/
theorem truthInRounds?_eq (w : Lasso α) (f : Formula α) :
    w.truthInRounds? f = some (w.truth f) := by
  induction f with
  | tt | ff | prop | negProp => rfl
  | next id f ih =>
    show (w.truthInRounds? f).map w.shift = _
    rw [ih]
    rfl
  | binary id op l r ihl ihr =>
    show ((w.truthInRounds? l).bind fun lefts => (w.truthInRounds? r).bind fun rights =>
      w.combineInRounds? op lefts rights) = _
    rw [ihl, ihr]
    exact w.combineInRounds?_eq op (w.length_truth l) (w.length_truth r)

/-- The value found at each position is the truth there of the formula on the
    infinite word, with sharing and sweeps as well as in rounds, which always
    settle.  Being a model is truth at the first position.  The formulas of a
    session are coherent, see `Session.Canonical.coherent`. -/
theorem evaluation_is_truth {f : Formula α} (coherent : f.Coherent) (w : Lasso α) :
    w.truthInRounds? f = some (w.evaluation.run f)
      ∧ (w.evaluation.run f).length = w.size
      ∧ (∀ i < w.size, (w.evaluation.run f).getD i false = true ↔ f.Holds w.letter i)
      ∧ (w.satisfies f = true ↔ f.Holds w.letter 0) := by
  have hrun : w.evaluation.run f = w.truth f := w.evaluation.run_eq_value coherent
  rw [hrun]
  refine ⟨w.truthInRounds?_eq f, w.length_truth f, fun i hi => ?_, w.satisfies_iff coherent⟩
  rw [w.truth_eq, List.getD_eq_getElem?_getD, List.getElem?_map, List.getElem?_range hi]
  exact truthAt_iff

/-- A word on which `p` is true at all places, and `q` at none. -/
def pAlways : Lasso String := ⟨[[("p", true)]], [[("p", true)], [("p", true), ("q", false)]],
  List.cons_ne_nil _ _⟩

/-- On it `p W q` is true. -/
theorem evaluation_is_truth_weakUntil :
    (Formula.binary 2 .weakUntil (.prop 0 "p") (.prop 1 "q")).Coherent
      ∧ (Formula.binary 2 .weakUntil (.prop 0 "p") (.prop 1 "q")).Holds pAlways.letter 0 := by
  -- three parts with three numbers
  have hcoherent : (Formula.binary 2 .weakUntil (.prop 0 "p") (.prop 1 "q")).Coherent := by
    intro g h hg hh hid
    cases hg with
    | refl => cases hh with
      | refl => rfl
      | left _ _ _ hpart => cases hpart; cases hid
      | right _ _ _ hpart => cases hpart; cases hid
    | left _ _ _ hg => cases hg with
      | refl => cases hh with
        | refl => cases hid
        | left _ _ _ hpart => cases hpart; rfl
        | right _ _ _ hpart => cases hpart; cases hid
    | right _ _ _ hg => cases hg with
      | refl => cases hh with
        | refl => cases hid
        | left _ _ _ hpart => cases hpart; cases hid
        | right _ _ _ hpart => cases hpart; rfl
  exact ⟨hcoherent, (evaluation_is_truth hcoherent pAlways).2.2.2.1 (by decide)⟩

example : pAlways.truthInRounds? (.binary 2 .strongUntil (.prop 0 "p") (.prop 1 "q"))
    = some [false, false, false] := by decide

end Lasso
end LinearTime
