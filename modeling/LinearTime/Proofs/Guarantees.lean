/-
  LinearTime.Proofs.Guarantees — what is guaranteed is true.

  Whether a formula is guaranteed by a set of formulas for this position and one
  for the next is decided by the expansion laws.  Truth follows the same laws.
  So on an infinite word on which all formulas of the two sets are true, at a
  position and the next one, every formula that they guarantee is true.

  This is so whatever the sets are, for any formulas whose numbers tell them
  apart.  On lasso words truth is also what evaluation finds, at the position
  of the lasso that the infinite word is at.

  Main results:
    * `Family.holds_of_guaranteedBy` — on all infinite words.
    * `Lasso.valueAt_iff` — evaluation finds the truth at every place of the
      infinite word.
    * `Workspace.guaranteed_is_true` — guarantees among formulas that exist.
-/

import LinearTime.Proofs.Expansions
import LinearTime.Proofs.Marks
import LinearTime.Proofs.Rounds

namespace LinearTime

variable {α : Type}

/-! ## §1. Infinite words -/

/-- A formula that is guaranteed by what is true is true. -/
theorem Formula.Family.holds_of_guaranteedBy {U : List (Formula α)} (hU : Family U)
    {now later : FormulaSet α} (hnow : now.Within U) (hlater : later.Within U)
    {v : Nat → α → Prop} {i : Nat} (hnowv : ∀ g ∈ now, g.Holds v i)
    (hlaterv : ∀ g ∈ later, g.Holds v (i + 1)) (f : Formula α) :
    f ∈ U → f.guaranteedBy now later = true → f.Holds v i := by
  have hcontained {g : Formula α} (hg : g ∈ U) (hc : now.contains g = true) : g.Holds v i :=
    hnowv g ((OrderedSet.contains_iff_mem hU.injOn hnow hg).1 hc)
  -- by induction on the operands: a guarantee goes through those of now only, while
  -- the formulas of next are looked up
  induction f using Formula.of_operands with
  | step f ih =>
    intro hf hguaranteed
    cases hl : f.isLiteral with
    | true =>
      rcases Formula.contains_of_guaranteedBy hl hguaranteed with ⟨id, rfl⟩ | hc
      · trivial
      · exact hcontained hf hc
    | false =>
      rcases (Formula.guaranteedBy_iff hl).1 hguaranteed with hc | hexpands
      · exact hcontained hf hc
      · -- the alternative that is guaranteed is true
        refine (Formula.holds_iff_expands v hl i).2 (hexpands.mono ?_ ?_)
        · exact fun g hg => ih g hg (hU.operand_mem f hf g hg)
        · intro g hg hc
          have hgU : g ∈ U := hU.mem_of_operand_or_eq hf hg
          exact hlaterv g ((OrderedSet.contains_iff_mem hU.injOn hlater hgU).1 hc)

/-! ## §2. Lasso words -/

namespace Lasso

variable [BEq α]

/-- What is true at a place of the infinite word is true at the position that the
    lasso is at there. -/
theorem holds_position (w : Lasso α) (f : Formula α) (n : Nat) :
    f.Holds w.letter (w.position n) ↔ f.Holds w.letter n := by
  -- for all formulas at once: one place further on is what `next f` is about
  induction n generalizing f with
  | zero => exact Iff.rfl
  | succ n ih =>
    calc f.Holds w.letter (w.position (n + 1))
        ↔ f.Holds w.letter (w.position n + 1) := w.holds_successor f (w.position_lt n)
      _ ↔ f.Holds w.letter (n + 1) := ih (.next 0 f)

/-- The value that evaluation finds for a formula at a place of the infinite word. -/
def valueAt (w : Lasso α) (f : Formula α) (n : Nat) : Bool :=
  (w.evaluation.run f).getD (w.position n) false

theorem valueAt_iff {f : Formula α} (coherent : f.Coherent) (w : Lasso α) (n : Nat) :
    w.valueAt f n = true ↔ f.Holds w.letter n := by
  have hlt : w.position n < w.size := w.position_lt n
  have hrun : w.evaluation.run f = w.truth f := w.evaluation.run_eq_value coherent
  unfold valueAt
  rw [hrun, w.truth_eq, List.getD_eq_getElem?_getD, List.getElem?_map, List.getElem?_range hlt]
  exact truthAt_iff.trans (w.holds_position f n)

end Lasso

/-! ## §3. Formulas that exist -/

namespace Workspace

variable [BEq α] {events : List (Event α)} {w : Workspace α}

/-- Let a formula be guaranteed by two sets of formulas, all of them made by
    whatever calls on formulas, also on formulas that the session has forgotten.
    Then on every lasso word, and at each place of the infinite word that it stands
    for, the formula is true if the formulas of the one set are true there and those
    of the other at the next place.  The same is so for the values that evaluation
    finds. -/
theorem guaranteed_is_true (h : Run {} events w) {f : Formula α} {now later : FormulaSet α}
    (hf : f ∈ w.formulas) (hnow : now.Within w.formulas) (hlater : later.Within w.formulas)
    (hguaranteed : f.guaranteedBy now later = true) (word : Lasso α) (i : Nat) :
    ((∀ g ∈ now, g.Holds word.letter i) → (∀ g ∈ later, g.Holds word.letter (i + 1)) →
        f.Holds word.letter i)
      ∧ ((∀ g ∈ now, word.valueAt g i = true) → (∀ g ∈ later, word.valueAt g (i + 1) = true) →
        word.valueAt f i = true) := by
  have hfamily : Formula.Family w.formulas := h.sound.numbered.family
  have hvalue {g : Formula α} (hg : g ∈ w.formulas) (n : Nat) :
      word.valueAt g n = true ↔ g.Holds word.letter n :=
    Lasso.valueAt_iff (hfamily.coherent hg) word n
  have htrue (hnowv : ∀ g ∈ now, g.Holds word.letter i)
      (hlaterv : ∀ g ∈ later, g.Holds word.letter (i + 1)) : f.Holds word.letter i :=
    hfamily.holds_of_guaranteedBy hnow hlater hnowv hlaterv f hf hguaranteed
  refine ⟨htrue, fun hnowv hlaterv => (hvalue hf i).2 (htrue ?_ ?_)⟩
  · exact fun g hg => (hvalue (hnow g hg) i).1 (hnowv g hg)
  · exact fun g hg => (hvalue (hlater g hg) (i + 1)).1 (hlaterv g hg)

/-- With `p` now and `p W q` next, `p W q` is guaranteed; it is true at the third
    place of a word on which `p` is true for ever. -/
theorem guaranteed_is_true_weakUntil :
    let p : Formula String := .prop 0 "p"
    let f : Formula String := .binary 2 .weakUntil p (.prop 1 "q")
    f.guaranteedBy (.ofList [p]) (.ofList [f]) = true
      ∧ ((∀ g ∈ (.ofList [p] : FormulaSet String), g.Holds Lasso.pAlways.letter 2) →
        (∀ g ∈ (.ofList [f] : FormulaSet String), g.Holds Lasso.pAlways.letter 3) →
          f.Holds Lasso.pAlways.letter 2)
      ∧ Lasso.pAlways.valueAt f 2 = true := by
  intro p f
  have hrun := run_p_q.step (.call (.binary .weakUntil p (.prop 1 "q"))
    (List.forall_mem_cons.2 ⟨.tail _ (.head _), List.forall_mem_singleton.2 (.head _)⟩))
  -- `p` holds now, and the weak until is left for the next position.
  have hguaranteed : f.guaranteedBy (.ofList [p]) (.ofList [f]) = true := by decide
  have hnow : (.ofList [p] : FormulaSet String).Within [f, .prop 1 "q", p] := by
    intro g hg
    rw [OrderedSet.mem_ofList_singleton.1 hg]
    exact .tail _ (.tail _ (.head _))
  have hlater : (.ofList [f] : FormulaSet String).Within [f, .prop 1 "q", p] := by
    intro g hg
    rw [OrderedSet.mem_ofList_singleton.1 hg]
    exact .head _
  have hboth := guaranteed_is_true hrun (.head _) hnow hlater hguaranteed Lasso.pAlways 2
  refine ⟨hguaranteed, hboth.1, hboth.2 ?_ ?_⟩
  · intro g hg
    rw [OrderedSet.mem_ofList_singleton.1 hg]
    decide
  · intro g hg
    rw [OrderedSet.mem_ofList_singleton.1 hg]
    decide

end Workspace
end LinearTime
