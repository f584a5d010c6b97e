/-
  LinearTime.Proofs.LassoTruth — evaluation on lasso words is truth on infinite words.

  A lasso word stands for the infinite word of its letters `nth 0, nth 1, …`,
  which repeats itself from the end of the spoke on.  The values that two sweeps
  along the cycle and one along the spoke give are the values on that word:

      guess wrong   ⟹  the first sweep settles what stands at the cycle's start
      guess right   ⟹  the first sweep reproduces it

  where a wrong guess is noticed because until is the least, and release and
  weak until are the greatest set that its expansion law describes.

  Main results:
    * `truth_eq` — the truth values at all positions are those of `Formula.Holds`.
    * `satisfies_iff` — being a model is `Formula.Holds` at position `0`.
    * `exists_suffix` — what is left of a lasso word after some letters is a
      lasso word.
-/

import LinearTime.Proofs.Semantics
import LinearTime.Word

namespace LinearTime
namespace Lasso

variable {α : Type}

/-! ## §1. The letters of the infinite word -/

/-- The infinite word: which atoms are true at each place. -/
def letter [BEq α] (w : Lasso α) (n : Nat) (a : α) : Prop := (w.nth n).value a = true

theorem cycle_pos (w : Lasso α) : 0 < w.cycle.length :=
  List.length_pos_of_ne_nil w.cycle_ne_nil

theorem size_pos (w : Lasso α) : 0 < w.size := by
  unfold size
  have := w.cycle_pos
  omega

/-- Behind the spoke the letters are those of the cycle. -/
theorem nth_of_spoke_le (w : Lasso α) {n : Nat} (h : w.spoke.length ≤ n) :
    w.nth n = w.cycle[(n - w.spoke.length) % w.cycle.length]?.getD [] := by
  unfold nth
  split
  next hlt =>
    have hlt' : n - w.spoke.length < w.cycle.length := by
      unfold size at hlt
      omega
    rw [Nat.mod_eq_of_lt hlt']
    unfold letters
    rw [List.getElem?_append_right h]
  next => rfl

/-- From the end of the spoke on the letters repeat. -/
theorem nth_add_cycle (w : Lasso α) {n : Nat} (h : w.spoke.length ≤ n) :
    w.nth (n + w.cycle.length) = w.nth n := by
  rw [w.nth_of_spoke_le h, w.nth_of_spoke_le (by omega),
    show n + w.cycle.length - w.spoke.length = n - w.spoke.length + w.cycle.length by omega,
    Nat.add_mod_right]

/-- Behind the spoke the letters repeat from cycle to cycle. -/
theorem nth_add_mul_cycle (w : Lasso α) {n : Nat} (h : w.spoke.length ≤ n) (k : Nat) :
    w.nth (n + k * w.cycle.length) = w.nth n := by
  induction k with
  | zero => rw [Nat.zero_mul, Nat.add_zero]
  | succ k ih =>
    rw [Nat.succ_mul, ← Nat.add_assoc, w.nth_add_cycle (by omega), ih]

/-- The places of the spoke, then those of the first copy of the cycle. -/
theorem range_size (w : Lasso α) : List.range w.size
    = List.range' 0 w.spoke.length ++ List.range' w.spoke.length w.cycle.length := by
  unfold size
  rw [List.range_eq_range', ← List.range'_append]
  simp

/-- The letters of a lasso are those of its positions in order. -/
theorem letters_eq (w : Lasso α) : w.letters = (List.range w.size).map w.nth := by
  apply List.ext_getElem?
  intro i
  rw [List.getElem?_map]
  have hlen : w.letters.length = w.size := by
    unfold letters size
    rw [List.length_append]
  -- within the word its letters, behind its end nothing
  by_cases h : i < w.size
  · rw [List.getElem?_range h]
    show _ = some (w.nth i)
    unfold nth
    rw [if_pos h, List.getElem?_eq_getElem (by omega)]
    rfl
  · rw [List.getElem?_eq_none (by omega), List.getElem?_eq_none (by simpa using h)]
    rfl

/-- What is left of a lasso word after some letters is a lasso word. -/
theorem exists_suffix (w : Lasso α) (i : Nat) : ∃ u : Lasso α, ∀ n, u.nth n = w.nth (n + i) := by
  refine ⟨⟨(List.range w.spoke.length).map fun k => w.nth (k + i),
    (List.range w.cycle.length).map fun k => w.nth (w.spoke.length + k + i), ?_⟩, fun n => ?_⟩
  · intro hnil
    have hlen := congrArg List.length hnil
    have hpos := w.cycle_pos
    rw [List.length_map, List.length_range, List.length_nil] at hlen
    omega
  -- Within the spoke the letters are those listed; behind it they repeat.
  · by_cases h : n < w.spoke.length
    · have hlt : n < w.spoke.length + w.cycle.length := by omega
      simp only [nth, size, letters, List.length_map, List.length_range, if_pos hlt]
      rw [List.getElem?_append_left (by simpa using h), List.getElem?_map,
        List.getElem?_range h]
      rfl
    · have hle : w.spoke.length ≤ n := Nat.le_of_not_lt h
      rw [nth_of_spoke_le _ (by simpa using hle)]
      simp only [List.length_map, List.length_range]
      have hmod := Nat.mod_lt (n - w.spoke.length) w.cycle_pos
      rw [List.getElem?_map, List.getElem?_range hmod]
      show w.nth _ = w.nth _
      have hdiv := Nat.div_add_mod (n - w.spoke.length) w.cycle.length
      rw [← w.nth_add_mul_cycle (by omega) ((n - w.spoke.length) / w.cycle.length),
        Nat.mul_comm ((n - w.spoke.length) / w.cycle.length)]
      congr 1
      omega

/-! ## §2. Sweeps -/

/-- A sweep whose guess is right gives the values of any solution of the law. -/
theorem sweep_eq {law : Law} {p : Nat → Bool × Bool} {x : Nat → Bool}
    (solves : ∀ i, x i = law (p i) (x (i + 1))) (n i : Nat) :
    sweep law (x (i + n)) ((List.range' i n).map p) = (List.range' i n).map x := by
  induction n generalizing i with
  | zero => rfl
  | succ n ih =>
    have hrest := ih (i + 1)
    rw [show i + 1 + n = i + (n + 1) by omega] at hrest
    rw [List.range'_succ, List.map_cons, List.map_cons]
    show law (p i) (ahead (x (i + (n + 1))) (sweep law (x (i + (n + 1))) _)) :: sweep law _ _ = _
    rw [hrest, solves i]
    congr 2
    cases n <;> rfl

/-- The value in front of a stretch whose guess is right. -/
theorem ahead_sweep_eq {law : Law} {p : Nat → Bool × Bool} {x : Nat → Bool}
    (solves : ∀ i, x i = law (p i) (x (i + 1))) (n i : Nat) :
    ahead (x (i + n)) (sweep law (x (i + n)) ((List.range' i n).map p)) = x i := by
  rw [sweep_eq solves]
  cases n <;> rfl

/-- A sweep gives a value for every position. -/
theorem length_sweep (law : Law) (later : Bool) (ps : List (Bool × Bool)) :
    (sweep law later ps).length = ps.length := by
  induction ps with
  | nil => rfl
  | cons p ps ih =>
    show (sweep law later ps).length + 1 = ps.length + 1
    rw [ih]

/-- Every value of a sweep comes from the value after it. -/
theorem getElem?_sweep (law : Law) (later : Bool) (ps : List (Bool × Bool)) (i : Nat)
    (h : i < ps.length) :
    (sweep law later ps)[i]?.getD later
      = law ps[i] ((sweep law later ps)[i + 1]?.getD later) := by
  induction ps generalizing i with
  | nil => exact absurd h (Nat.not_lt_zero i)
  | cons p ps ih =>
    -- the value at the head is made from that of the rest
    cases i with
    | zero =>
      show law p (ahead later (sweep law later ps)) = law p _
      congr 1
      unfold ahead
      rw [List.head?_eq_getElem?]
      rfl
    | succ i => exact ih i (by simpa using h)

/-- A guess that a sweep along a repeating stretch reproduces belongs to a
    solution of the law. -/
theorem exists_solution {law : Law} {p : Nat → Bool × Bool} {n : Nat} (pos : 0 < n)
    (periodic : ∀ i, p (i + n) = p i) {guess : Bool}
    (stable : ahead guess (sweep law guess ((List.range' 0 n).map p)) = guess) :
    ∃ y : Nat → Bool, y 0 = guess ∧ ∀ i, y i = law (p i) (y (i + 1)) := by
  have hmod : ∀ i, p (i % n) = p i := by
    intro i
    conv_rhs => rw [← Nat.mod_add_div i n]
    generalize i / n = k
    induction k with
    | zero => rw [Nat.mul_zero, Nat.add_zero]
    | succ k ih => rw [Nat.mul_succ, ← Nat.add_assoc, periodic, ih]
  have hhead : (sweep law guess ((List.range' 0 n).map p))[0]?.getD guess = guess := by
    rw [← List.head?_eq_getElem?]
    exact stable
  refine ⟨fun i => (sweep law guess ((List.range' 0 n).map p))[i % n]?.getD guess, ?_, ?_⟩
  · show (sweep law guess _)[0 % n]?.getD guess = guess
    rw [Nat.zero_mod]
    exact hhead
  · intro i
    have hlt := Nat.mod_lt i pos
    show (sweep law guess _)[i % n]?.getD guess
      = law (p i) ((sweep law guess _)[(i + 1) % n]?.getD guess)
    rw [getElem?_sweep law guess _ (i % n) (by simpa using hlt)]
    have hlt' : i % n < ((List.range' 0 n).map p).length := by simpa using hlt
    have hp : ((List.range' 0 n).map p)[i % n] = p i := by
      rw [List.getElem_map, List.getElem_range', ← hmod i]
      simp
    rw [hp]
    congr 1
    -- behind the last position stands the first one again
    by_cases hlast : i % n + 1 = n
    · have h0 : (i + 1) % n = 0 := by
        rw [← Nat.mod_add_mod, hlast, Nat.mod_self]
      rw [h0, hhead, hlast, List.getElem?_eq_none (by rw [length_sweep]; simp)]
      rfl
    · have h1 : (i + 1) % n = i % n + 1 := by
        rw [← Nat.mod_add_mod, Nat.mod_eq_of_lt (by omega)]
      rw [h1]

/-! ## §3. Solving expansion laws -/

/-- Two sweeps along the cycle and one along the spoke give the values of the
    solution `x`, if `x` is the guess wherever some solution is. -/
theorem solve_eq (w : Lasso α) {law : Law} {p : Nat → Bool × Bool} {x : Nat → Bool}
    {guess : Bool} (solves : ∀ i, x i = law (p i) (x (i + 1)))
    (repeats : ∀ i, w.spoke.length ≤ i → p (i + w.cycle.length) = p i)
    (repeated : x (w.spoke.length + w.cycle.length) = x w.spoke.length)
    (extreme : ∀ y : Nat → Bool, (∀ i, y i = law (p (w.spoke.length + i)) (y (i + 1))) →
      y 0 = guess → x w.spoke.length = guess) :
    w.solve guess law ((List.range w.size).map p) = (List.range w.size).map x := by
  have htake : ((List.range w.size).map p).take w.spoke.length
      = (List.range' 0 w.spoke.length).map p := by
    rw [w.range_size, List.map_append, List.take_left' (by simp)]
  have hdrop : ((List.range w.size).map p).drop w.spoke.length
      = (List.range' w.spoke.length w.cycle.length).map p := by
    rw [w.range_size, List.map_append, List.drop_left' (by simp)]
  have hcycle := ahead_sweep_eq solves w.cycle.length w.spoke.length
  rw [repeated] at hcycle
  -- The value at the start of the cycle, from which everything else is swept.
  have hsettled : ahead guess (sweep law guess
      ((List.range' w.spoke.length w.cycle.length).map p)) = x w.spoke.length := by
    by_cases hguess : x w.spoke.length = guess
    · rw [hguess] at hcycle
      rw [hcycle, hguess]
    · -- a guess that stood its ground would belong to a solution
      have hmoved : ahead guess (sweep law guess
          ((List.range' w.spoke.length w.cycle.length).map p)) ≠ guess := by
        intro hstable
        have hshift : (List.range' w.spoke.length w.cycle.length).map p
            = (List.range' 0 w.cycle.length).map fun i => p (w.spoke.length + i) := by
          rw [← List.range_eq_range', List.range'_eq_map_range, List.map_map]
          rfl
        rw [hshift] at hstable
        obtain ⟨y, hy0, hy⟩ := exists_solution w.cycle_pos
          (fun i => by rw [← Nat.add_assoc]; exact repeats _ (by omega)) hstable
        exact hguess (extreme y hy hy0)
      exact (Bool.eq_not.2 hmoved).trans (Bool.eq_not.2 hguess).symm
  unfold solve
  rw [htake, hdrop]
  simp only
  rw [hsettled, hcycle]
  have hspoke := sweep_eq solves w.spoke.length 0
  rw [Nat.zero_add] at hspoke
  have hrest := sweep_eq solves w.cycle.length w.spoke.length
  rw [repeated] at hrest
  rw [hspoke, hrest, ← List.map_append, ← w.range_size]

/-- What stands at the positions, seen from the positions before them. -/
theorem shift_eq {β : Type} (w : Lasso α) (x : Nat → β) :
    w.shift ((List.range w.size).map x)
      = (List.range w.size).map fun i => x (w.successor i) := by
  have hpos := w.cycle_pos
  have hlen : ((List.range w.size).map x).length = w.size := by simp
  apply List.ext_getElem?
  intro i
  unfold shift
  have hsize : w.spoke.length < w.size := by
    unfold size
    omega
  rw [List.getElem?_append, List.length_drop, hlen, List.getElem?_map]
  split
  next h =>
    rw [List.getElem?_drop, List.getElem?_map, List.getElem?_range (by omega),
      List.getElem?_range (by omega)]
    show some (x (1 + i)) = some (x (w.successor i))
    unfold successor
    rw [if_pos (by omega), Nat.add_comm]
  next h =>
    by_cases hi : i + 1 = w.size
    -- The last position is followed by the start of the cycle.
    · rw [show i - (w.size - 1) = 0 by omega, List.getElem?_take_of_lt Nat.zero_lt_one,
        List.getElem?_drop, Nat.add_zero, List.getElem?_map, List.getElem?_range hsize,
        List.getElem?_range (by omega)]
      show some (x w.spoke.length) = some (x (w.successor i))
      unfold successor
      rw [if_neg (by omega)]
    · rw [List.getElem?_take_eq_none (by omega), List.getElem?_eq_none (by simp; omega)]
      rfl

/-! ## §4. Truth -/

variable [BEq α]

/-- From the end of the spoke on truth repeats. -/
theorem holds_add_cycle (w : Lasso α) (f : Formula α) {i : Nat} (h : w.spoke.length ≤ i) :
    f.Holds w.letter (i + w.cycle.length) ↔ f.Holds w.letter i := by
  have hrest : (fun k => w.letter (k + (i + w.cycle.length))) = fun k => w.letter (k + i) := by
    funext k a
    unfold letter
    rw [← Nat.add_assoc, w.nth_add_cycle (by omega)]
  have hfar := f.holds_add w.letter 0 (i + w.cycle.length)
  have hnear := f.holds_add w.letter 0 i
  rw [Nat.zero_add] at hfar hnear
  rw [hfar, hnear, hrest]

/-- The position after the last one is the first of the cycle. -/
theorem holds_successor (w : Lasso α) (f : Formula α) {i : Nat} (h : i < w.size) :
    f.Holds w.letter (w.successor i) ↔ f.Holds w.letter (i + 1) := by
  unfold successor
  split
  next => exact Iff.rfl
  next hlast =>
    have hi : i + 1 = w.spoke.length + w.cycle.length := by
      unfold size at h hlast
      omega
    rw [hi]
    exact (w.holds_add_cycle f (le_refl _)).symm

open Classical in
/-- The truth value of a formula at a position of the infinite word. -/
noncomputable def truthAt (w : Lasso α) (f : Formula α) (i : Nat) : Bool :=
  decide (f.Holds w.letter i)

/-- The truth of a formula at a position of the lasso, as a truth value. -/
theorem truthAt_iff {w : Lasso α} {f : Formula α} {i : Nat} :
    w.truthAt f i = true ↔ f.Holds w.letter i := by
  classical
  exact decide_eq_true_iff

/-- The truth values of a literal, letter by letter. -/
theorem literalTruth_eq (w : Lasso α) (f : Formula α) (h : f.isLiteral = true) :
    w.literalTruth f = (List.range w.size).map (w.truthAt f) := by
  -- a literal asks for the letter of its position only
  have hletters (value : Valuation α → Bool)
      (hvalue : ∀ i, value (w.nth i) = true ↔ f.Holds w.letter i) :
      w.letters.map value = (List.range w.size).map (w.truthAt f) := by
    rw [w.letters_eq, List.map_map]
    refine List.map_congr_left fun i _ => Bool.eq_iff_iff.2 ?_
    rw [truthAt_iff]
    exact hvalue i
  cases f with
  | tt id => exact hletters (fun _ => true) fun i => by simp [Formula.Holds]
  | ff id => exact hletters (fun _ => false) fun i => by simp [Formula.Holds]
  | prop id a => exact hletters (·.value a) fun i => Iff.rfl
  | negProp id propId a =>
    refine hletters (fun v => !v.value a) fun i => ?_
    show (!(w.nth i).value a) = true ↔ ¬ (w.nth i).value a = true
    rw [Bool.not_eq_true', Bool.not_eq_true]
  | next | binary => cases h

/-- The law by which the value of an operator is found is its expansion law. -/
theorem truthAt_until (w : Lasso α) (l r : Formula α) (id i : Nat) :
    w.truthAt (.binary id .strongUntil l r) i
      = (w.truthAt r i || (w.truthAt l i && w.truthAt (.binary id .strongUntil l r) (i + 1))) := by
  rw [Bool.eq_iff_iff, Bool.or_eq_true, Bool.and_eq_true]
  simp only [truthAt_iff]
  exact until_iff

/-- The truth of a release, from that at the next position. -/
theorem truthAt_release (w : Lasso α) (l r : Formula α) (id i : Nat) :
    w.truthAt (.binary id .release l r) i
      = (w.truthAt r i && (w.truthAt l i || w.truthAt (.binary id .release l r) (i + 1))) := by
  rw [Bool.eq_iff_iff, Bool.and_eq_true, Bool.or_eq_true]
  simp only [truthAt_iff]
  exact release_iff

/-- The truth of a weak until, from that at the next position. -/
theorem truthAt_weakUntil (w : Lasso α) (l r : Formula α) (id i : Nat) :
    w.truthAt (.binary id .weakUntil l r) i
      = (w.truthAt r i || (w.truthAt l i && w.truthAt (.binary id .weakUntil l r) (i + 1))) := by
  rw [Bool.eq_iff_iff, Bool.or_eq_true, Bool.and_eq_true]
  simp only [truthAt_iff]
  exact weakUntil_iff

/-- The values of an operator are its truth, if those of its operands are. -/
theorem combine_eq (w : Lasso α) (op : BinaryOp) (l r : Formula α) (id : Nat) :
    w.combine op ((List.range w.size).map (w.truthAt l)) ((List.range w.size).map (w.truthAt r))
      = (List.range w.size).map (w.truthAt (.binary id op l r)) := by
  have hrepeats (f : Formula α) (i : Nat) (h : w.spoke.length ≤ i) :
      w.truthAt f (i + w.cycle.length) = w.truthAt f i := by
    rw [Bool.eq_iff_iff, truthAt_iff, truthAt_iff]
    exact w.holds_add_cycle f h
  have hoperands (i : Nat) (h : w.spoke.length ≤ i) :
      (w.truthAt l (i + w.cycle.length), w.truthAt r (i + w.cycle.length))
        = (w.truthAt l i, w.truthAt r i) := by
    rw [hrepeats l i h, hrepeats r i h]
  have hrepeated := hrepeats (.binary id op l r) w.spoke.length (le_refl _)
  have hstart : (Formula.binary id op l r).Holds w.letter w.spoke.length
      ↔ op.Holds (fun k => l.Holds w.letter (k + w.spoke.length))
          (fun k => r.Holds w.letter (k + w.spoke.length)) 0 := by
    rw [← op.holds_add, Nat.zero_add]
    exact Iff.rfl
  unfold combine
  rw [List.zip_map']
  -- conjunction and disjunction look at one position only; for the others, a
  -- solution that starts with the guess has to agree with the truth there
  cases op with
  | conj =>
    show List.map (fun (p : Bool × Bool) => p.1 && p.2) _ = _
    rw [List.map_map]
    refine List.map_congr_left fun i _ => ?_
    rw [Bool.eq_iff_iff, truthAt_iff]
    simp [truthAt_iff, Formula.Holds, BinaryOp.Holds]
  | disj =>
    show List.map (fun (p : Bool × Bool) => p.1 || p.2) _ = _
    rw [List.map_map]
    refine List.map_congr_left fun i _ => ?_
    rw [Bool.eq_iff_iff, truthAt_iff]
    simp [truthAt_iff, Formula.Holds, BinaryOp.Holds]
  | strongUntil =>
    refine w.solve_eq (fun i => w.truthAt_until l r id i) hoperands hrepeated fun y hy h0 => ?_
    rw [← Bool.not_eq_true, truthAt_iff, hstart]
    intro hu
    -- the until is the least solution, so it holds no more often than `y`
    have hy0 := Until.least (S := fun i => y i = true) (fun k _ hk => ?_) hu
    · rw [h0] at hy0
      cases hy0
    · rw [hy k, Nat.add_comm w.spoke.length k]
      simpa [truthAt_iff] using hk
  | release =>
    refine w.solve_eq (fun i => w.truthAt_release l r id i) hoperands hrepeated fun y hy h0 => ?_
    rw [truthAt_iff, hstart]
    -- the release is the greatest solution, so it holds wherever `y` does
    refine Release.greatest (S := fun i => y i = true) (fun k _ hk => ?_) h0
    rw [hy k, Nat.add_comm w.spoke.length k] at hk
    simpa [truthAt_iff] using hk
  | weakUntil =>
    refine w.solve_eq (fun i => w.truthAt_weakUntil l r id i) hoperands hrepeated fun y hy h0 => ?_
    rw [truthAt_iff, hstart]
    refine WeakUntil.greatest (S := fun i => y i = true) (fun k _ hk => ?_) h0
    rw [hy k, Nat.add_comm w.spoke.length k] at hk
    simpa [truthAt_iff] using hk

/-- The truth values at all positions are the truth on the infinite word. -/
theorem truth_eq (w : Lasso α) (f : Formula α) :
    w.truth f = (List.range w.size).map (w.truthAt f) := by
  unfold truth
  induction f with
  | tt id => exact w.literalTruth_eq (.tt id) rfl
  | ff id => exact w.literalTruth_eq (.ff id) rfl
  | prop id a => exact w.literalTruth_eq (.prop id a) rfl
  | negProp id propId a => exact w.literalTruth_eq (.negProp id propId a) rfl
  | next id f ih =>
    show w.shift (w.evaluation.value f) = _
    rw [ih, w.shift_eq]
    refine List.map_congr_left fun i hi => ?_
    rw [Bool.eq_iff_iff, truthAt_iff, truthAt_iff]
    exact w.holds_successor f (List.mem_range.1 hi)
  | binary id op l r ihl ihr =>
    show w.combine op (w.evaluation.value l) (w.evaluation.value r) = _
    rw [ihl, ihr, w.combine_eq]

/-- A word is a model of a formula that is true at its first position. -/
theorem satisfies_iff (w : Lasso α) {f : Formula α} (coherent : f.Coherent) :
    w.satisfies f = true ↔ f.Holds w.letter 0 := by
  rw [w.satisfies_eq_head_truth coherent, w.truth_eq]
  obtain ⟨n, hn⟩ : ∃ n, w.size = n + 1 := ⟨w.size - 1, by have := w.size_pos; omega⟩
  rw [hn, List.range_succ_eq_map]
  exact truthAt_iff

/-- Truth at a position of a lasso word is truth at the start of a lasso word. -/
theorem exists_suffix_holds (w : Lasso α) (i : Nat) :
    ∃ u : Lasso α, ∀ k, u.letter k = w.letter (k + i) := by
  obtain ⟨u, hu⟩ := w.exists_suffix i
  refine ⟨u, fun k => ?_⟩
  funext a
  unfold letter
  rw [hu k]

end Lasso
end LinearTime
