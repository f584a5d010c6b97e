/-
  LinearTime.Proofs.Semantics — the truth of formulas on infinite words.

  An infinite word says which atoms are true at which position.  `Formula.Holds`
  is the textbook truth of a formula at a position of such a word: until asks
  for some later position, release and weak until look at all later ones.

  Main results:
    * `until_iff`, `release_iff`, `weakUntil_iff` — the expansion laws, which
      tie the truth at a position to the truth at the next one.
    * `not_until`, `not_release`, `not_weakUntil` — the dualities.
    * `weakUntil_iff_release` — `y W l` is `l V (y \/ l)`.
    * `Formula.holds_add` — truth at a position is truth at the start of the
      rest of the word.
-/

import Mathlib
import LinearTime.Formula.Basic

namespace LinearTime

/-! ## §1. Operators on sets of positions -/

/-- `Q` at some position from `i` on, and `P` at all positions before it. -/
def Until (P Q : Nat → Prop) (i : Nat) : Prop :=
  ∃ j, i ≤ j ∧ Q j ∧ ∀ k, i ≤ k → k < j → P k

/-- `Q` at every position from `i` on, up to and including the first `P`. -/
def Release (P Q : Nat → Prop) (i : Nat) : Prop :=
  ∀ j, i ≤ j → Q j ∨ ∃ k, i ≤ k ∧ k < j ∧ P k

/-- Until, or `P` at every position from `i` on. -/
def WeakUntil (P Q : Nat → Prop) (i : Nat) : Prop :=
  Until P Q i ∨ ∀ j, i ≤ j → P j

/-- The positions at which an operator is true, from those of its operands. -/
def BinaryOp.Holds : BinaryOp → (Nat → Prop) → (Nat → Prop) → Nat → Prop
  | .conj, P, Q, i => P i ∧ Q i
  | .disj, P, Q, i => P i ∨ Q i
  | .strongUntil, P, Q, i => Until P Q i
  | .release, P, Q, i => Release P Q i
  | .weakUntil, P, Q, i => WeakUntil P Q i

/-- Truth at a position of the word whose letter at `n` makes the atoms of
    `v n` true. -/
def Formula.Holds {α : Type} (v : Nat → α → Prop) : Formula α → Nat → Prop
  | .tt _, _ => True
  | .ff _, _ => False
  | .prop _ a, i => v i a
  | .negProp _ _ a, i => ¬ v i a
  | .next _ f, i => f.Holds v (i + 1)
  | .binary _ op l r, i => op.Holds (l.Holds v) (r.Holds v) i

/-! ## §2. Expansion laws -/

variable {P Q : Nat → Prop} {i : Nat}

/-- The expansion law of until. -/
theorem until_iff : Until P Q i ↔ Q i ∨ (P i ∧ Until P Q (i + 1)) := by
  constructor
  · rintro ⟨j, hij, hQ, hP⟩
    rcases Nat.eq_or_lt_of_le hij with rfl | hlt
    · exact .inl hQ
    · exact .inr ⟨hP i (le_refl i) hlt, j, hlt, hQ, fun k hk hkj => hP k (by omega) hkj⟩
  · rintro (hQ | ⟨hPi, j, hij, hQ, hP⟩)
    · exact ⟨i, le_refl i, hQ, fun k hk hki => absurd hk (by omega)⟩
    · refine ⟨j, by omega, hQ, fun k hk hkj => ?_⟩
      rcases Nat.eq_or_lt_of_le hk with rfl | hlt
      · exact hPi
      · exact hP k hlt hkj

/-- The expansion law of release. -/
theorem release_iff : Release P Q i ↔ Q i ∧ (P i ∨ Release P Q (i + 1)) := by
  constructor
  · intro h
    have hQ : Q i := by
      rcases h i (le_refl i) with hQ | ⟨k, hk, hki, _⟩
      · exact hQ
      · omega
    refine ⟨hQ, ?_⟩
    -- released now, or still held at the next position
    by_cases hP : P i
    · exact .inl hP
    · refine .inr fun j hj => ?_
      rcases h j (by omega) with hQj | ⟨k, hk, hkj, hPk⟩
      · exact .inl hQj
      · have hne : i ≠ k := fun heq => hP (heq ▸ hPk)
        exact .inr ⟨k, by omega, hkj, hPk⟩
  · rintro ⟨hQ, h⟩ j hj
    rcases Nat.eq_or_lt_of_le hj with rfl | hlt
    · exact .inl hQ
    · rcases h with hP | h
      · exact .inr ⟨i, le_refl i, hlt, hP⟩
      · rcases h j hlt with hQj | ⟨k, hk, hkj, hPk⟩
        · exact .inl hQj
        · exact .inr ⟨k, by omega, hkj, hPk⟩

/-! ## §3. Dualities -/

/-- Until and release are dual. -/
theorem not_until : ¬ Until P Q i ↔ Release (fun k => ¬ P k) (fun k => ¬ Q k) i := by
  unfold Until Release
  push Not
  constructor
  · intro h j hj
    by_cases hQ : Q j
    · obtain ⟨k, hk, hkj, hP⟩ := h j hj hQ
      exact .inr ⟨k, hk, hkj, hP⟩
    · exact .inl hQ
  · intro h j hj hQ
    rcases h j hj with hnQ | ⟨k, hk, hkj, hP⟩
    · exact absurd hQ hnQ
    · exact ⟨k, hk, hkj, hP⟩

/-- Release and until are dual. -/
theorem not_release : ¬ Release P Q i ↔ Until (fun k => ¬ P k) (fun k => ¬ Q k) i := by
  have h := not_until (P := fun k => ¬ P k) (Q := fun k => ¬ Q k) (i := i)
  simp only [not_not] at h
  rw [← h, not_not]

/-- The first position at which a released operand fails. -/
theorem weakUntil_iff_release : WeakUntil P Q i ↔ Release Q (fun k => P k ∨ Q k) i := by
  constructor
  · rintro (⟨j, hj, hQ, hP⟩ | h) m hm
    · by_cases hmj : m < j
      · exact .inl (.inl (hP m hm hmj))
      · rcases Nat.eq_or_lt_of_le (Nat.le_of_not_lt hmj) with rfl | hlt
        · exact .inl (.inr hQ)
        · exact .inr ⟨j, hj, hlt, hQ⟩
    · exact .inl (.inl (h m hm))
  · intro h
    by_cases hall : ∀ j, i ≤ j → P j
    · exact .inr hall
    · refine .inl ?_
      -- the first failure of `P` comes with, or after, a position of `Q`
      push Not at hall
      classical
      obtain ⟨hij, hPj⟩ := Nat.find_spec hall
      have hbefore : ∀ k, i ≤ k → k < Nat.find hall → P k := fun k hk hkj => by
        by_contra hPk
        exact Nat.find_min hall hkj ⟨hk, hPk⟩
      rcases h (Nat.find hall) hij with (hP | hQ) | ⟨k, hk, hkj, hQ⟩
      · exact absurd hP hPj
      · exact ⟨Nat.find hall, hij, hQ, hbefore⟩
      · exact ⟨k, hk, hQ, fun m hm hmk => hbefore m hm (by omega)⟩

/-- The expansion law of weak until. -/
theorem weakUntil_iff : WeakUntil P Q i ↔ Q i ∨ (P i ∧ WeakUntil P Q (i + 1)) := by
  rw [weakUntil_iff_release, release_iff, ← weakUntil_iff_release]
  tauto

/-- The negation of weak until, by way of an until. -/
theorem not_weakUntil :
    ¬ WeakUntil P Q i ↔ Until (fun k => ¬ Q k) (fun k => ¬ P k ∧ ¬ Q k) i := by
  rw [weakUntil_iff_release, not_release]
  simp only [not_or]

/-! ## §4. Least and greatest solutions -/

/-- Until is the least set that its expansion law describes. -/
theorem Until.least {S : Nat → Prop} (law : ∀ k, i ≤ k → (Q k ∨ (P k ∧ S (k + 1))) → S k)
    (h : Until P Q i) : S i := by
  obtain ⟨j, hij, hQ, hP⟩ := h
  have down : ∀ d, d ≤ j - i → S (j - d) := by
    intro d
    induction d with
    | zero => intro _; exact law j hij (.inl hQ)
    | succ d ih =>
      intro hd
      have hS : S (j - (d + 1) + 1) := by
        rw [show j - (d + 1) + 1 = j - d by omega]
        exact ih (by omega)
      exact law _ (by omega) (.inr ⟨hP _ (by omega) (by omega), hS⟩)
  have := down (j - i) (le_refl _)
  rwa [show j - (j - i) = i by omega] at this

/-- Release is the greatest set that its expansion law describes. -/
theorem Release.greatest {S : Nat → Prop} (law : ∀ k, i ≤ k → S k → Q k ∧ (P k ∨ S (k + 1)))
    (h : S i) : Release P Q i := by
  by_contra hn
  have := (not_release.1 hn).least (S := fun k => ¬ S k) ?_
  · exact this h
  · rintro k hk (hQ | ⟨hP, hS⟩) hSk
    · exact hQ (law k hk hSk).1
    · exact (law k hk hSk).2.elim hP hS

/-- Weak until is the greatest set that its expansion law describes. -/
theorem WeakUntil.greatest {S : Nat → Prop} (law : ∀ k, i ≤ k → S k → Q k ∨ (P k ∧ S (k + 1)))
    (h : S i) : WeakUntil P Q i := by
  rw [weakUntil_iff_release]
  refine Release.greatest (S := S) (fun k hk hS => ?_) h
  rcases law k hk hS with hQ | ⟨hP, hS'⟩
  · exact ⟨.inr hQ, .inl hQ⟩
  · exact ⟨.inl hP, .inr hS'⟩

/-- Whoever follows the expansion law to a place where the until is fulfilled proves it. -/
theorem until_of_fulfilled {S : Nat → Prop} (law : ∀ k, S k → Q k ∨ (P k ∧ S (k + 1))) {d : Nat}
    (hQ : Q (i + d)) (h : S i) : Until P Q i := by
  induction d generalizing i with
  | zero => exact until_iff.2 (.inl hQ)
  | succ d ih =>
    rcases law i h with hnow | ⟨hP, hS⟩
    · exact until_iff.2 (.inl hnow)
    · rw [show i + (d + 1) = i + 1 + d by omega] at hQ
      exact until_iff.2 (.inr ⟨hP, ih hQ hS⟩)

/-! ## §5. Equal operands and later starts -/

/-- Operators do not tell apart what holds at the same positions. -/
theorem BinaryOp.holds_congr (op : BinaryOp) {P' Q' : Nat → Prop} (hP : ∀ k, P k ↔ P' k)
    (hQ : ∀ k, Q k ↔ Q' k) : op.Holds P Q i ↔ op.Holds P' Q' i := by
  rw [funext fun k => propext (hP k), funext fun k => propext (hQ k)]

theorem until_add (n : Nat) :
    Until P Q (i + n) ↔ Until (fun k => P (k + n)) (fun k => Q (k + n)) i := by
  constructor
  · rintro ⟨j, hj, hQ, hP⟩
    refine ⟨j - n, by omega, ?_, fun k hk hkj => hP (k + n) (by omega) (by omega)⟩
    show Q (j - n + n)
    rwa [show j - n + n = j by omega]
  · rintro ⟨j, hj, hQ, hP⟩
    refine ⟨j + n, by omega, hQ, fun k hk hkj => ?_⟩
    have hPk : P (k - n + n) := hP (k - n) (by omega) (by omega)
    rwa [show k - n + n = k by omega] at hPk

theorem release_add (n : Nat) :
    Release P Q (i + n) ↔ Release (fun k => P (k + n)) (fun k => Q (k + n)) i := by
  rw [← not_iff_not, not_release, not_release, until_add]

theorem weakUntil_add (n : Nat) :
    WeakUntil P Q (i + n) ↔ WeakUntil (fun k => P (k + n)) (fun k => Q (k + n)) i := by
  rw [weakUntil_iff_release, weakUntil_iff_release, release_add]

/-- Operators look ahead only: a later position is the start of the word behind it. -/
theorem BinaryOp.holds_add (op : BinaryOp) (n : Nat) :
    op.Holds P Q (i + n) ↔ op.Holds (fun k => P (k + n)) (fun k => Q (k + n)) i := by
  cases op with
  | conj | disj => exact Iff.rfl
  | strongUntil => exact until_add n
  | release => exact release_add n
  | weakUntil => exact weakUntil_add n

namespace Formula

variable {α : Type}

/-- Truth at a position is truth at the start of the rest of the word. -/
theorem holds_add (v : Nat → α → Prop) (f : Formula α) (i n : Nat) :
    f.Holds v (i + n) ↔ f.Holds (fun k => v (k + n)) i := by
  induction f generalizing i with
  | tt | ff | prop | negProp => exact Iff.rfl
  | next id f ih =>
    show f.Holds v (i + n + 1) ↔ f.Holds _ (i + 1)
    rw [← ih, show i + n + 1 = i + 1 + n by omega]
  | binary id op l r ihl ihr =>
    show op.Holds (l.Holds v) (r.Holds v) (i + n) ↔ op.Holds (l.Holds _) (r.Holds _) i
    rw [op.holds_add]
    exact op.holds_congr ihl ihr

end Formula
end LinearTime
