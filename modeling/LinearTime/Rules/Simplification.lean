/-
  LinearTime.Rules.Simplification — simplifying formulas by a rule table.

  One pass rebuilds a formula from its operands upwards and tries every rule
  once at every node.  Some simplifications show only in the negation of a
  formula, so passes alternate between the formula and its negation, until a
  pass over the negation changes nothing.

  A result is marked with the stamp of its table; simplifying it again with
  the same table gives it back at once.

  Core only.
-/

import LinearTime.Formula.Fold
import LinearTime.Rules.Matching

namespace LinearTime

variable {α : Type} [BEq α]

/-! ## §1. One pass -/

/-- Replaces an instance of the pattern by the filled replacement, and leaves
    other formulas as they are. -/
def Rule.apply (rule : Rule) (f : Formula α) : Build α (Formula α) :=
  match Bindings.extend? rule.pattern f [] with
  | none => pure f
  | some b => do return (← (b.fill rule.replacement).run).getD f

/-- Tries every rule once, in order, on what the rules before it left. -/
def Rule.applyAll (rules : List Rule) (f : Formula α) : Build α (Formula α) :=
  rules.foldlM (fun f rule => rule.apply f) f

/-- Rebuilding a formula from its operands upwards, with every rule tried once
    at every node. -/
def Rule.rebuilding (rules : List Rule) : Formula.Fold (Build α) α (Formula α) where
  literal := applyAll rules
  next f := do applyAll rules (← Build.next f)
  binary op l r := do applyAll rules (← Build.binary op l r)

/-- Rebuilds a formula once. -/
def Rule.pass (rules : List Rule) (f : Formula α) : Build α (Formula α) :=
  (rebuilding rules).run f

/-! ## §2. Passes until nothing changes -/

/-- Runs up to `passes` passes, each on the negation of what the one before
    left; `negated` says whether `f` stands for the negation of the formula to
    simplify.  The result is there once a pass over the negation changes
    nothing. -/
def Rule.settle? (rules : List Rule) :
    (passes : Nat) → (negated : Bool) → Formula α → Build α (Option (Formula α))
  | 0, _, _ => return none
  | passes + 1, negated, f => do
    let g ← pass rules f
    -- `h` is for the next pass; negated once more it stands for `f`
    let h ← Build.not g
    if g.same f && negated then return some h
    else settle? rules passes (!negated) h

/-- A number of passes that tables whose rules shrink formulas never reach. -/
def Rule.passLimit (f : Formula α) : Nat := Nat.pow 2 62 + Nat.pow 4 f.size

namespace RuleTable

/-- Simplifies a formula until no rule changes it or its negation any more.
    Literals, and results of the table in its present state, are given back at
    once.  A formula on which the passes do not settle stays as it is. -/
def simplify (table : RuleTable) (f : Formula α) : Build α (Formula α) := do
  if f.isLiteral || (← get).producedBy f table.stamp then return f
  match ← Rule.settle? table.rules (Rule.passLimit f) false f with
  | some g =>
    modify (·.markProduced g table.stamp)
    return g
  -- the limit was reached
  | none => return f

end RuleTable
end LinearTime
