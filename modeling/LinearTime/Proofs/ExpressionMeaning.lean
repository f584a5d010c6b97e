/-
  LinearTime.Proofs.ExpressionMeaning — building an expression preserves its meaning.

  An expression has its textbook truth on infinite words, with negation as
  complement.  What is built from it looks different: negation is pushed to the
  atoms, operands are exchanged, a release may have become a weak until.  Each
  constructor keeps the meaning at every position (`Built.holds`), so the whole
  does, and evaluation of what is built is truth of what was written.

  Main results:
    * `Lasso.letter_respects` — lasso words do not tell equal atoms apart.
    * `canonicalization_preserves_meaning` — models of what is built are the words
      on which the expression is true.
-/

import LinearTime.Proofs.Guards
import LinearTime.Proofs.Histories
import LinearTime.Proofs.LassoTruth

namespace LinearTime

variable {α : Type}

/-! ## §1. Textbook laws of the operators -/

namespace Expression

variable {v : Nat → α → Prop} {l r : Expression α} {i : Nat}

/-- Release is the dual of until. -/
theorem holds_release_iff : (binary .release l r).Holds v i
    ↔ ¬ (binary .strongUntil l.not r.not).Holds v i := by
  show Release (l.Holds v) (r.Holds v) i ↔ ¬ Until (l.not.Holds v) (r.not.Holds v) i
  have hdual : ¬ Release (l.Holds v) (r.Holds v) i ↔ Until (l.not.Holds v) (r.not.Holds v) i :=
    not_release
  rw [← hdual, not_not]

/-- Weak until is until, or always. -/
theorem holds_weakUntil_iff : (binary .weakUntil l r).Holds v i
    ↔ (binary .strongUntil l r).Holds v i ∨ l.always.Holds v i := Iff.rfl

/-- Implication is material. -/
theorem holds_implies_iff : (implies l r).Holds v i ↔ (binary .disj l.not r).Holds v i :=
  imp_iff_not_or

end Expression

/-! ## §2. What is built -/

variable [BEq α] [EquivBEq α] {s : Session α}

/-- Equal atoms are true at the same places of a lasso word. -/
theorem Lasso.letter_respects (w : Lasso α) : Respects w.letter := by
  intro n a b hab
  show (w.nth n).value a = true ↔ (w.nth n).value b = true
  rw [Valuation.value_congr hab]

/-- Canonicalization preserves meaning: in every session that comes about, the
    models of the formula that is built from an expression are the words on which
    the expression is true.  There negation is complement, release is the dual of
    until, weak until is until or always, and implication is material. -/
theorem canonicalization_preserves_meaning (h : s.Reached) (w : Lasso α) :
    (∀ e : Expression α, w.satisfies (e.build s).1 = true ↔ e.Holds w.letter 0)
      ∧ ∀ (l r : Expression α) (v : Nat → α → Prop) (i : Nat),
          (l.not.Holds v i ↔ ¬ l.Holds v i)
            ∧ ((Expression.binary .release l r).Holds v i
                ↔ ¬ (Expression.binary .strongUntil l.not r.not).Holds v i)
            ∧ ((Expression.binary .weakUntil l r).Holds v i
                ↔ (Expression.binary .strongUntil l r).Holds v i ∨ l.always.Holds v i)
            ∧ ((Expression.implies l r).Holds v i
                ↔ (Expression.binary .disj l.not r).Holds v i) := by
  constructor
  · intro e
    -- what was built stands for the expression, whatever was shared
    have hleads := e.build_leads h.canonical
    have hcoherent : (e.build s).1.Coherent := hleads.sound.coherent hleads.result.1
    rw [w.satisfies_iff hcoherent]
    exact hleads.result.2.holds w.letter_respects 0
  · intro l r v i
    exact ⟨Iff.rfl, Expression.holds_release_iff, Expression.holds_weakUntil_iff,
      Expression.holds_implies_iff⟩

/-- The release `a V (b \/ a)` is built as a weak until.  It is true on every word
    that starts with `a`. -/
theorem canonicalization_preserves_meaning_release :
    (⟨[[("a", true)]], [[]], List.cons_ne_nil _ _⟩ : Lasso String).satisfies
      ((Expression.binary .release (.prop "a")
        (.binary .disj (.prop "b") (.prop "a"))).build {}).1 = true := by
  let w : Lasso String := ⟨[[("a", true)]], [[]], List.cons_ne_nil _ _⟩
  have hmeaning := (canonicalization_preserves_meaning Session.Reached.start w).1
    (.binary .release (.prop "a") (.binary .disj (.prop "b") (.prop "a")))
  have ha : w.letter 0 "a" := by
    show (w.nth 0).value "a" = true
    decide
  exact hmeaning.2 (release_iff.2 ⟨.inr ha, .inl ha⟩)

end LinearTime
