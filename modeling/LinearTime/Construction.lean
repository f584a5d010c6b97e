/-
  LinearTime.Construction — from formulas to automata.

  A construction simplifies the formula with its rules, unless told not to,
  and expands the result.

  Core only.
-/

import LinearTime.Automaton.Product
import LinearTime.Rules.Simplification
import LinearTime.Tableau.Automaton

namespace LinearTime

/-- How automata are built from formulas. -/
structure Construction where
  rules : RuleTable
  merge : Merge := .nextAndPending
  simplify : Bool := true

namespace Construction

variable {α : Type} [BEq α]

/-- The formula that is expanded. -/
def prepare (c : Construction) (f : Formula α) : Build α (Formula α) :=
  if c.simplify then c.rules.simplify f else return f

/-- The automaton of a formula. -/
def automaton (c : Construction) (f : Formula α) :
    Build α (Except (NotLiteral α) (Automaton α)) := do
  let prepared ← c.prepare f
  return prepared.toAutomaton c.merge

/-- The automaton of a formula as a graph. -/
def graph (c : Construction) (f : Formula α) : Build α (Except (NotLiteral α) (Graph α)) := do
  return (← c.automaton f).map Automaton.toGraph

end Construction
end LinearTime
