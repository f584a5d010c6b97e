/-
  LinearTime.Guard.Literal — the literals of guards.

  A literal is the constant true, an atom, or a negated atom.  Literals over
  ordered atoms are ordered themselves: the constant first, then by atom, the
  negated literal directly after its positive counterpart.

  Core only.
-/

import LinearTime.Formula.Basic

namespace LinearTime

/-- The constant true, an atom, or a negated atom. -/
inductive Literal (α : Type) where
  | truth
  | positive (atom : α)
  | negative (atom : α)
  deriving BEq, DecidableEq, Repr

/-- A formula that was used as a literal without being one. -/
structure NotLiteral (α : Type) where
  formula : Formula α

/-- The wording of the fault. -/
def NotLiteral.message {α : Type} [AtomName α] (fault : NotLiteral α) : String :=
  "bad literal: " ++ fault.formula.text

namespace Literal

variable {α : Type}

/-- The atom, unless the literal is the constant. -/
def atom? : Literal α → Option α
  | truth => none
  | positive a | negative a => some a

/-- Whether the literal is a negated atom. -/
def isNegated : Literal α → Bool
  | negative _ => true
  | truth | positive _ => false

/-- The literal a formula stands for. The constant false has no counterpart. -/
def ofFormula : Formula α → Except (NotLiteral α) (Literal α)
  | .tt _ => .ok truth
  | .prop _ a => .ok (positive a)
  | .negProp _ _ a => .ok (negative a)
  | f@(.ff _) | f@(.next _ _) | f@(.binary _ _ _ _) => .error ⟨f⟩

/-- The truth value, given those of the atoms. -/
def holds (value : α → Bool) : Literal α → Bool
  | truth => true
  | positive a => value a
  | negative a => !value a

/-- The written form. -/
def text [AtomName α] : Literal α → String
  | truth => "TRUE"
  | positive a => AtomName.nameOf a
  | negative a => "!" ++ AtomName.nameOf a

/-- Orders `false` before `true`. -/
def polarityOrder : Bool → Bool → Ordering
  | false, true => .lt
  | true, false => .gt
  | _, _ => .eq

/-- Orders literals, given an order of their atoms. -/
def orderBy (atomOrder : α → α → Ordering) (l m : Literal α) : Ordering :=
  match l.atom?, m.atom? with
  | none, none => .eq
  | none, some _ => .lt
  | some _, none => .gt
  | some a, some b => (atomOrder a b).then (polarityOrder l.isNegated m.isNegated)

end Literal
end LinearTime
