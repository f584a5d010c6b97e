/-
  LinearTime.Formula.Obligation — sets of formulas and what they guarantee.

  A tableau keeps the formulas that hold now and those that have to hold in
  the next position.  Both are sets ordered by creation number.  A formula is
  *guaranteed* by such a pair if its truth follows from them by the expansion
  laws of its operators alone.

  Core only.
-/

import LinearTime.OrderedSet
import LinearTime.Formula.Basic

namespace LinearTime

/-- A set of formulas, ordered by creation number. -/
abbrev FormulaSet (α : Type) := OrderedSet (β := Formula α) Formula.id

namespace Formula

variable {α : Type}

/-- Whether the formula follows from `now`, which holds in this position, and
    `later`, which holds in the next one. The test looks at the expansion of
    the operators only and may miss formulas that follow for other reasons. -/
def guaranteedBy (now later : FormulaSet α) : Formula α → Bool
  | tt _ => true
  | f@(ff _) | f@(prop _ _) | f@(negProp _ _ _) => now.contains f
  | f@(next _ g) => now.contains f || later.contains g
  | f@(binary _ .conj l r) => now.contains f || (l.guaranteedBy now later && r.guaranteedBy now later)
  | f@(binary _ .disj l r) => now.contains f || r.guaranteedBy now later || l.guaranteedBy now later
  -- `later` counts only for what the expansion law leaves to the next position
  | f@(binary _ .release l r) =>
    now.contains f ||
      (r.guaranteedBy now later && (l.guaranteedBy now later || later.contains f))
  | f@(binary _ .strongUntil l r) | f@(binary _ .weakUntil l r) =>
    now.contains f || r.guaranteedBy now later ||
      (l.guaranteedBy now later && later.contains f)

end Formula
end LinearTime
