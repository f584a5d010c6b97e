/-
  LinearTime.Proofs.Guards — what guards say.

  The guard of a set of formulas is enabled by the letters on which the literals
  of the set are true.  If no proposition stands there together with its
  negation such a letter exists: the one that makes just the propositions of the
  set true.

  Main results:
    * `Guard.ofFormulas_eq` — without a constant false there is a guard.
    * `Guard.enabled_iff` — its letters.
    * `Guard.enabled_congr` — equal guards have the same letters.
    * `Guard.exists_enabled` — consistent sets have a letter.
-/

import LinearTime.Guard.Basic
import LinearTime.Proofs.Semantics

namespace LinearTime

variable {α : Type}

/-! ## §1. The guard of some formulas -/

/-- The literal that a formula contributes to a guard. -/
def Formula.literal? : Formula α → Option (Literal α)
  | .tt _ | .ff _ | .next _ _ | .binary _ _ _ _ => none
  | .prop _ a => some (.positive a)
  | .negProp _ _ a => some (.negative a)

namespace Guard

/-- The literals among some formulas. -/
def literalsOf (fs : List (Formula α)) : Guard α := ⟨fs.filterMap Formula.literal?⟩

theorem ofFormulas_eq (fs : List (Formula α)) (hff : ∀ id, .ff id ∉ fs) :
    ofFormulas fs = .ok (literalsOf fs) := by
  induction fs with
  | nil => rfl
  | cons f fs ih =>
    have ih := ih fun id hid => hff id (List.mem_cons_of_mem _ hid)
    cases f with
    | ff id => exact absurd List.mem_cons_self (hff id)
    | tt | next | binary => exact ih
    | prop | negProp =>
      unfold ofFormulas
      rw [ih]
      rfl

variable [BEq α]

/-- A guard is enabled by the letters on which its formulas that are literals
    are true. -/
theorem enabled_iff (fs : List (Formula α)) (hff : ∀ id, .ff id ∉ fs) {letter : Valuation α}
    {v : Nat → α → Prop} {i : Nat} (hv : ∀ a, v i a ↔ letter.value a = true) :
    (literalsOf fs).enabled letter = true ↔ ∀ f ∈ fs, f.isLiteral = true → f.Holds v i := by
  -- What the literal of a formula says is the formula; a formula that has none says nothing.
  have hliteral (f : Formula α) (hf : ∀ id, f ≠ .ff id) :
      (∀ l, f.literal? = some l → l.holds letter.value = true)
        ↔ (f.isLiteral = true → f.Holds v i) := by
    cases f with
    | tt => simp [Formula.literal?, Formula.Holds]
    | ff id => exact absurd rfl (hf id)
    | prop id a => simp [Formula.literal?, Formula.isLiteral, Formula.Holds, Literal.holds, hv]
    | negProp id p a => simp [Formula.literal?, Formula.isLiteral, Formula.Holds, Literal.holds, hv]
    | next | binary => simp [Formula.literal?, Formula.isLiteral]
  unfold enabled literalsOf
  rw [List.all_eq_true]
  constructor
  · intro h f hf
    apply (hliteral f fun id hid => hff id (hid ▸ hf)).1
    intro l hl
    exact h l (List.mem_filterMap.2 ⟨f, hf, hl⟩)
  · intro h l hl
    obtain ⟨f, hf, hl⟩ := List.mem_filterMap.1 hl
    exact (hliteral f fun id hid => hff id (hid ▸ hf)).2 (h f hf) l hl

end Guard

/-! ## §2. Equal guards -/

section Equality

variable [BEq α] [EquivBEq α] {letter : Valuation α} {a b : α}

/-- Equal atoms have the same truth value. -/
theorem Valuation.value_congr (h : (a == b) = true) : letter.value a = letter.value b := by
  unfold value
  induction letter with
  | nil => rfl
  | cons entry rest ih =>
    rw [List.lookup_cons, List.lookup_cons, BEq.congr_left h]
    split
    · rfl
    · exact ih

theorem Literal.holds_congr {l m : Literal α} (h : (l == m) = true) :
    l.holds letter.value = m.holds letter.value := by
  cases l with
  | truth =>
    cases m with
    | truth => rfl
    | positive | negative => cases h
  | positive a =>
    cases m with
    | positive b => exact Valuation.value_congr h
    | truth | negative => cases h
  | negative a =>
    cases m with
    | negative b => exact congrArg (!·) (Valuation.value_congr h)
    | truth | positive => cases h

theorem Guard.enabled_of_subterm {g h : Guard α} (hsub : g.subterm h = true)
    (hh : h.enabled letter = true) : g.enabled letter = true := by
  unfold enabled at hh ⊢
  rw [List.all_eq_true] at hh ⊢
  intro l hl
  have hcontains := List.all_eq_true.1 hsub l hl
  obtain ⟨m, hm, heq⟩ := List.contains_iff_exists_mem_beq.1 hcontains
  rw [Literal.holds_congr heq]
  exact hh m hm

/-- Literals are equal as their atoms are. -/
instance : EquivBEq (Literal α) where
  rfl {l} := by
    cases l with
    | truth => rfl
    | positive a => exact BEq.refl a
    | negative a => exact BEq.refl a
  symm {l m} h := by
    cases l with
    | truth =>
      cases m with
      | truth => rfl
      | positive | negative => cases h
    | positive a =>
      cases m with
      | positive b => exact BEq.symm (α := α) h
      | truth | negative => cases h
    | negative a =>
      cases m with
      | negative b => exact BEq.symm (α := α) h
      | truth | positive => cases h
  trans {l m n} h h' := by
    cases l with
    | truth =>
      cases m with
      | truth => exact h'
      | positive | negative => cases h
    | positive a =>
      cases m with
      | positive b =>
        cases n with
        | positive c => exact BEq.trans (α := α) h h'
        | truth | negative => cases h'
      | truth | negative => cases h
    | negative a =>
      cases m with
      | negative b =>
        cases n with
        | negative c => exact BEq.trans (α := α) h h'
        | truth | positive => cases h'
      | truth | positive => cases h

omit [EquivBEq α] in
theorem Guard.subterm_iff {g h : Guard α} :
    g.subterm h = true ↔ ∀ l ∈ g.literals, ∃ m ∈ h.literals, (l == m) = true := by
  unfold subterm
  rw [List.all_eq_true]
  exact forall₂_congr fun l _ => List.contains_iff_exists_mem_beq

theorem Guard.subterm_trans {g h i : Guard α} (hgh : g.subterm h = true)
    (hhi : h.subterm i = true) : g.subterm i = true := by
  rw [subterm_iff] at hgh hhi ⊢
  intro l hl
  obtain ⟨m, hm, hlm⟩ := hgh l hl
  obtain ⟨n, hn, hmn⟩ := hhi m hm
  exact ⟨n, hn, BEq.trans hlm hmn⟩

/-- Equality of guards, up to order and repetition of literals, is an equivalence. -/
instance : EquivBEq (Guard α) where
  rfl {g} := by
    have hself : g.subterm g = true := Guard.subterm_iff.2 fun l hl => ⟨l, hl, BEq.refl l⟩
    exact Bool.and_eq_true_iff.2 ⟨hself, hself⟩
  symm {g h} heq := Bool.and_eq_true_iff.2 (Bool.and_eq_true_iff.1 heq).symm
  trans {g h i} hgh hhi := by
    obtain ⟨hgh, hhg⟩ := Bool.and_eq_true_iff.1 hgh
    obtain ⟨hhi, hih⟩ := Bool.and_eq_true_iff.1 hhi
    exact Bool.and_eq_true_iff.2
      ⟨Guard.subterm_trans hgh hhi, Guard.subterm_trans hih hhg⟩

/-- Equal guards are enabled by the same letters. -/
theorem Guard.enabled_congr {g h : Guard α} (heq : (g == h) = true) :
    g.enabled letter = h.enabled letter := by
  obtain ⟨hgh, hhg⟩ := Bool.and_eq_true_iff.1 heq
  exact Bool.eq_iff_iff.2 ⟨enabled_of_subterm hhg, enabled_of_subterm hgh⟩

end Equality

/-! ## §3. Letters for guards -/

section Letters

variable [BEq α] [EquivBEq α]

theorem Valuation.value_assign (v : Valuation α) (a b : α) (x : Bool) :
    (v.assign a x).value b = if b == a then x else v.value b := by
  unfold value
  induction v with
  | nil =>
    show (match b == a with | true => some x | false => none).getD false = _
    cases b == a <;> rfl
  | cons entry rest ih =>
    obtain ⟨c, y⟩ := entry
    unfold assign
    -- The entry is for `a` and is replaced, or the search goes on behind it.
    by_cases hca : (c == a) = true
    · rw [if_pos hca, List.lookup_cons, List.lookup_cons, BEq.congr_right hca]
      cases b == a <;> rfl
    · rw [if_neg hca, List.lookup_cons, List.lookup_cons]
      by_cases hbc : (b == c) = true
      · have hba : (b == a) = false := by
          rw [BEq.congr_left hbc]
          exact Bool.eq_false_iff.2 hca
        rw [hbc, hba]
        rfl
      · rw [Bool.eq_false_iff.2 hbc]
        exact ih

/-- Just the given atoms are true. -/
theorem Valuation.value_ofTrue (atoms : List α) (b : α) :
    (Valuation.ofTrue atoms).value b = true ↔ ∃ a ∈ atoms, (b == a) = true := by
  have hfold (v : Valuation α) : (atoms.foldl (fun v a => v.assign a true) v).value b = true
      ↔ v.value b = true ∨ ∃ a ∈ atoms, (b == a) = true := by
    induction atoms generalizing v with
    | nil => simp
    | cons a atoms ih =>
      rw [List.foldl_cons, ih, Valuation.value_assign, List.exists_mem_cons_iff, ← or_assoc]
      apply or_congr_left
      cases b == a <;> simp
  have hempty : Valuation.value ([] : Valuation α) b = false := rfl
  unfold ofTrue
  rw [hfold, hempty]
  simp

/-- If no proposition stands among the formulas together with its negation there
    is a letter that enables their guard. -/
theorem Guard.exists_enabled (fs : List (Formula α))
    (h : ∀ i j p a b, .prop i a ∈ fs → .negProp j p b ∈ fs → (a == b) = false) :
    ∃ letter : Valuation α, (literalsOf fs).enabled letter = true := by
  -- The letter in which just the positive literals of the label are true.
  let atoms := fs.filterMap Formula.atom?
  have hatom (a : α) : a ∈ atoms ↔ ∃ i, .prop i a ∈ fs := by
    rw [List.mem_filterMap]
    constructor
    · rintro ⟨f, hf, hfa⟩
      cases f with
      | prop i b =>
        rw [← Option.some.inj hfa]
        exact ⟨i, hf⟩
      | tt | ff | negProp | next | binary => cases hfa
    · rintro ⟨i, hi⟩
      exact ⟨_, hi, rfl⟩
  refine ⟨Valuation.ofTrue atoms, ?_⟩
  unfold enabled literalsOf
  rw [List.all_eq_true]
  intro l hl
  obtain ⟨f, hf, hl⟩ := List.mem_filterMap.1 hl
  cases f with
  | tt | ff | next | binary => cases hl
  | prop i a =>
    rw [← Option.some.inj hl]
    exact (Valuation.value_ofTrue atoms a).2 ⟨a, (hatom a).2 ⟨i, hf⟩, BEq.rfl⟩
  | negProp j p b =>
    rw [← Option.some.inj hl]
    -- A negated atom that were true would be one of the positive ones.
    have hfalse : (Valuation.ofTrue atoms).value b = false := by
      rw [Bool.eq_false_iff]
      intro htrue
      obtain ⟨a, ha, hba⟩ := (Valuation.value_ofTrue atoms b).1 htrue
      obtain ⟨i, hi⟩ := (hatom a).1 ha
      have hab := h i j p a b hi hf
      rw [BEq.comm, hba] at hab
      cases hab
    show (!(Valuation.ofTrue atoms).value b) = true
    rw [hfalse]
    rfl

end Letters
end LinearTime
