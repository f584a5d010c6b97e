/-
  LinearTime.Formula.Expression — written formulas before they are shared.

  An expression is what a caller writes down: any nesting of the operators,
  negation included.  `Expression.build` turns it into a shared formula,
  operands first and from left to right.

  Core only.
-/

import LinearTime.Formula.Session

namespace LinearTime

/-- A formula as it is written, negation anywhere. -/
inductive Expression (α : Type) where
  | tt
  | ff
  | prop (atom : α)
  | not (f : Expression α)
  | next (f : Expression α)
  | always (f : Expression α)
  | eventually (f : Expression α)
  | binary (op : BinaryOp) (left right : Expression α)
  | implies (left right : Expression α)
  deriving Repr

namespace Expression

variable {α : Type} [BEq α]

/-- Builds the formula, operands first and from left to right. -/
def build : Expression α → Build α (Formula α)
  | tt => Build.tt
  | ff => Build.ff
  | prop atom => Build.prop atom
  | not f => do Build.not (← f.build)
  | next f => do Build.next (← f.build)
  | always f => do Build.always (← f.build)
  | eventually f => do Build.eventually (← f.build)
  | binary op l r => do
    let l' ← l.build
    let r' ← r.build
    Build.binary op l' r'
  | implies l r => do
    let l' ← l.build
    let r' ← r.build
    Build.implies l' r'

end Expression
end LinearTime
