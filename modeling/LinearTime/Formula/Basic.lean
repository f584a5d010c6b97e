/-
  LinearTime.Formula.Basic — temporal formulas in negation normal form.

  A formula is a tree over the constants, atomic propositions, negated
  propositions, the next operator and five binary operators.  Negation occurs
  above a proposition only; the type leaves no room for any other place.

  Every formula carries its creation number.  Within one session equal
  formulas have equal numbers (`LinearTime.Formula.Session`), so the numbers
  decide equality and order formulas by age.

  Two orders of the operands of a binary operator are in use.  The *logical*
  order is that of the written formula.  In *tableau order* the operand that
  a postponed obligation still demands now comes first: for a release this is
  the right one, for every other operator the left one.

  Core only.
-/

namespace LinearTime

/-- Atomic propositions have a printed name. -/
class AtomName (α : Type) where
  nameOf : α → String

instance : AtomName String := ⟨fun name => name⟩

/-- The binary operators. -/
inductive BinaryOp where
  | conj
  | disj
  | strongUntil
  | release
  | weakUntil
  deriving DecidableEq, Repr

/-- Whether the operands may be exchanged. -/
def BinaryOp.isCommutative : BinaryOp → Bool
  | .conj | .disj => true
  | .strongUntil | .release | .weakUntil => false

/-- The written form of an operator. -/
def BinaryOp.symbol : BinaryOp → String
  | .conj => "/\\"
  | .disj => "\\/"
  | .strongUntil => "U"
  | .release => "V"
  | .weakUntil => "W"

/-- A formula in negation normal form; every node starts with its creation
    number. A negated proposition also knows the number of the proposition. -/
inductive Formula (α : Type) where
  | tt (id : Nat)
  | ff (id : Nat)
  | prop (id : Nat) (atom : α)
  | negProp (id : Nat) (propId : Nat) (atom : α)
  | next (id : Nat) (sub : Formula α)
  | binary (id : Nat) (op : BinaryOp) (left right : Formula α)
  deriving Repr

namespace Formula

variable {α : Type}

/-! ## §1. Parts of a formula -/

/-- The creation number. -/
def id : Formula α → Nat
  | tt id | ff id | prop id _ | negProp id _ _ | next id _ | binary id _ _ _ => id

/-- Equal formulas of one session have one number. -/
def same (f g : Formula α) : Bool := f.id == g.id

/-- The operands in logical order. -/
def operands : Formula α → List (Formula α)
  | tt _ | ff _ | prop _ _ => []
  | negProp _ propId atom => [prop propId atom]
  | next _ f => [f]
  | binary _ _ l r => [l, r]

/-- The operands in tableau order. -/
def tableauOperands : Formula α → List (Formula α)
  | binary _ .release l r => [r, l]
  | f => f.operands

/-- The atom of a proposition. -/
def atom? : Formula α → Option α
  | prop _ atom => some atom
  | _ => none

/-- The constants, propositions and negated propositions. -/
def isLiteral : Formula α → Bool
  | tt _ | ff _ | prop _ _ | negProp _ _ _ => true
  | next _ _ | binary _ _ _ _ => false

/-- Strong untils are the formulas that promise something. -/
def isStrongUntil : Formula α → Bool
  | binary _ .strongUntil _ _ => true
  | _ => false

/-- The number of nodes of the tree; a negated proposition counts as two. -/
def size : Formula α → Nat
  | tt _ | ff _ | prop _ _ => 1
  | negProp _ _ _ => 2
  | next _ f => f.size + 1
  | binary _ _ l r => l.size + r.size + 1

/-- A proposition and its negation, or the two constants, in any order. -/
def contradicts : Formula α → Formula α → Bool
  | negProp _ propId _, g => g.id == propId
  | f, negProp _ propId _ => f.id == propId
  | tt _, ff _ | ff _, tt _ => true
  | _, _ => false

/-! ## §2. Printing -/

/-- The written form, with parentheses around every operator. -/
def text [AtomName α] : Formula α → String
  | tt _ => "true"
  | ff _ => "false"
  | prop _ atom => AtomName.nameOf atom
  | negProp _ _ atom => "( ! " ++ AtomName.nameOf atom ++ " )"
  | next _ f => "( X " ++ f.text ++ " )"
  | binary _ op l r => "( " ++ l.text ++ " " ++ op.symbol ++ " " ++ r.text ++ " )"

/-! ## §3. Distinct subformulas -/

/-- Walks a formula in preorder, operands in tableau order, and puts each
    formula not met before in front of `met`. -/
def meet : Formula α → List (Formula α) → List (Formula α)
  | f@(tt _), met | f@(ff _), met | f@(prop _ _), met =>
    if met.any f.same then met else f :: met
  | f@(negProp _ propId atom), met =>
    if met.any f.same then met
    else
      let p := prop propId atom
      if (f :: met).any p.same then f :: met else p :: f :: met
  | f@(next _ g), met => if met.any f.same then met else g.meet (f :: met)
  | f@(binary _ .release l r), met =>
    if met.any f.same then met else l.meet (r.meet (f :: met))
  | f@(binary _ _ l r), met =>
    if met.any f.same then met else r.meet (l.meet (f :: met))

/-- The distinct subformulas, the formula included, in preorder. -/
def subformulas (f : Formula α) : List (Formula α) := (f.meet []).reverse

end Formula
end LinearTime
