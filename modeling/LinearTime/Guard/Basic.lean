/-
  LinearTime.Guard.Basic — conjunctions of literals.

  A guard labels a transition and is enabled by the valuations that make all
  its literals true; the empty guard is always enabled.  The literals are kept
  in the order in which they were given, but two guards are equal when each
  one's literals occur in the other.

  Core only.
-/

import LinearTime.Formula.Obligation
import LinearTime.Guard.Literal
import LinearTime.Valuation

namespace LinearTime

/-- A conjunction of literals. -/
structure Guard (α : Type) where
  literals : List (Literal α) := []
  deriving DecidableEq, Repr

namespace Guard

variable {α : Type}

/-- The conjunction of the literals among some formulas; other formulas and the
    constant true are skipped. A guard with the constant false could never be
    enabled and is refused. -/
def ofFormulas : List (Formula α) → Except (NotLiteral α) (Guard α)
  | [] => .ok {}
  | f :: fs =>
    match f with
    | .next _ _ | .binary _ _ _ _ | .tt _ => ofFormulas fs
    | .ff _ | .prop _ _ | .negProp _ _ _ => do
      let l ← Literal.ofFormula f
      let guard ← ofFormulas fs
      return ⟨l :: guard.literals⟩

/-- The number of literals, repetitions included. -/
def size (g : Guard α) : Nat := g.literals.length

/-- Whether there is no literal. -/
def isEmpty (g : Guard α) : Bool := g.literals.isEmpty

variable [BEq α]

/-- Whether every literal of `g` also occurs in `h`. -/
def subterm (g h : Guard α) : Bool := g.literals.all (h.literals.contains ·)

/-- Guards are equal when each one's literals occur in the other. -/
instance : BEq (Guard α) := ⟨fun g h => g.subterm h && h.subterm g⟩

/-- Whether all literals are true. -/
def enabled (g : Guard α) (v : Valuation α) : Bool := g.literals.all (·.holds v.value)

/-- Whether an atom occurs together with its negation. -/
def isContradictory (g : Guard α) : Bool :=
  g.literals.any fun
    | .positive a => g.literals.contains (.negative a)
    | .truth | .negative _ => false

end Guard
end LinearTime
