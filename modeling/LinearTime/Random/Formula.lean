/-
  LinearTime.Random.Formula — random formulas of a given length.

  The length counts operators and propositions.  Length one is a proposition,
  length two a unary operator on one.  A longer formula is an until or a
  release with a given probability; otherwise it is, with equal chance, a unary
  operator or a conjunction or disjunction.  The operands of a binary operator
  share the remaining length.

  Core only.
-/

import LinearTime.Formula.Session
import LinearTime.Random.Source
import LinearTime.Text.Shortest

namespace LinearTime.Random

/-- What cannot be drawn. -/
inductive DrawFault where
  | emptyFormula
  | noProposition
  | notAProbability (value : Float)
  | emptyCycle
  deriving DecidableEq, Repr

/-- The wording of a fault. -/
def DrawFault.message : DrawFault → String
  | .emptyFormula => "formulas can not be empty"
  | .noProposition => "need at least one proposition"
  | .notAProbability value => Text.writeFloat value ++ " is not a probability"
  | .emptyCycle => "the cycle needs at least one letter"

/-- A computation that draws answers and builds formulas. -/
abbrev Drawing (σ : Type) := StateT σ (Build String)

/-- Draws inside a session. -/
def draw {σ β : Type} (question : StateM σ β) : Drawing σ β := fun s => pure (question s)

variable {σ : Type}

/-- Negates a formula, or puts a next in front of it. -/
def unary (source : Source σ) (f : Formula String) : Drawing σ (Formula String) := do
  if ← draw source.coin then Build.not f else Build.next f

/-- A random formula over `names` propositions. The share of the left operand
    is drawn before it is known whether there will be two operands. -/
def formula (source : Source σ) (names : Nat) (h : 0 < names) (untilOrRelease : Float) :
    (length : Nat) → Drawing σ (Formula String)
  | 0 | 1 => do Build.prop (propositionName (← draw (source.below names h)))
  | 2 => do unary source (← formula source names h untilOrRelease 1)
  | rest + 3 => do
    -- drawn even if one operand follows
    let share ← draw (source.below (rest + 1) (Nat.succ_pos rest))
    if ← draw (source.event untilOrRelease) then
      let l ← formula source names h untilOrRelease (share + 1)
      let r ← formula source names h untilOrRelease (rest + 1 - share)
      if ← draw source.coin then Build.strongUntil l r else Build.release l r
    else if ← draw source.coin then
      unary source (← formula source names h untilOrRelease (rest + 2))
    else
      let l ← formula source names h untilOrRelease (share + 1)
      let r ← formula source names h untilOrRelease (rest + 1 - share)
      if ← draw source.coin then Build.conj l r else Build.disj l r
termination_by length => length
decreasing_by all_goals omega

/-- Random formulas of one length, drawn one after the other. -/
def formulas (source : Source σ) (length names : Nat) (untilOrRelease : Float)
    (count : Nat) : Except DrawFault (Drawing σ (List (Formula String))) :=
  if length = 0 then .error .emptyFormula
  else if h : 0 < names then
    if 0.0 ≤ untilOrRelease ∧ untilOrRelease ≤ 1.0 then
      .ok ((List.replicate count ()).mapM fun _ =>
        formula source names h untilOrRelease length)
    else .error (.notAProbability untilOrRelease)
  else .error .noProposition

/-- One random formula, a third of whose longer parts are untils or releases. -/
def singleFormula (source : Source σ) (length names : Nat) :
    Except DrawFault (Drawing σ (Formula String)) :=
  if length = 0 then .error .emptyFormula
  else if h : 0 < names then .ok (formula source names h (1.0 / 3.0) length)
  else .error .noProposition

end LinearTime.Random
