/-
  LinearTime.Rules.Matching — patterns against formulas.

  Matching assigns a formula to each placeholder of a pattern.  A placeholder
  that occurs again has to meet the same formula.  Operands are compared in
  tableau order; those of a conjunction or disjunction are tried crosswise if
  the straight attempt fails.  Filling a replacement is the way back.

  Core only.
-/

import LinearTime.Rules.Table

namespace LinearTime

/-- The formulas that placeholders stand for. -/
abbrev Bindings (α : Type) := List (String × Formula α)

namespace Bindings

variable {α : Type}

/-- Lets `name` stand for `f`, unless it stands for another formula already. -/
def assign? (b : Bindings α) (name : String) (f : Formula α) : Option (Bindings α) :=
  match b.lookup name with
  -- the name occurs again, and has to meet the same formula
  | some g => if g.same f then some b else none
  | none => some ((name, f) :: b)

/-- Extends the bindings so that the pattern stands for the formula. -/
def extend? : (pattern : Formula String) → Formula α → Bindings α → Option (Bindings α)
  | .prop _ name, f, b => b.assign? name f
  | .tt _, .tt _, b => some b
  | .ff _, .ff _, b => some b
  | .negProp _ _ name, .negProp _ propId atom, b => b.assign? name (.prop propId atom)
  | .next _ p, .next _ f, b => extend? p f b
  | .binary _ op p q, .binary _ op' f g, b =>
    if op == op' then
      match op with
      -- right operand first
      | .release => (extend? q g b).bind (extend? p f)
      | .strongUntil | .weakUntil => (extend? p f b).bind (extend? q g)
      | .conj | .disj =>
        -- straight, and crosswise only if that fails; the first success counts
        match (extend? p f b).bind (extend? q g) with
        | some b' => some b'
        | none => (extend? q f b).bind (extend? p g)
    else none
  | _, _, _ => none

/-- Builds what a template stands for, operands in logical order; nothing if
    it has a placeholder that stands for nothing. -/
def fill [BEq α] (b : Bindings α) : Formula String → OptionT (Build α) (Formula α)
  | .prop _ name => OptionT.mk (pure (b.lookup name))
  | .tt _ => liftM (Build.tt (α := α))
  | .ff _ => liftM (Build.ff (α := α))
  | .negProp _ _ name => do
    let f ← OptionT.mk (pure (b.lookup name))
    Build.not f
  | .next _ p => do
    let f ← b.fill p
    Build.next f
  | .binary _ op p q => do
    let f ← b.fill p
    let g ← b.fill q
    Build.binary op f g

end Bindings
end LinearTime
