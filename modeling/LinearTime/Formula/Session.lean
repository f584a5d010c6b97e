/-
  LinearTime.Formula.Session — sharing and numbering formulas.

  A session keeps the formulas built so far.  Asking for a formula that is
  already there gives that very formula; a new one gets the next number.
  Numbers are never given out twice, also not after the session has been
  reset.

  The constructors keep formulas canonical:

    * negation is pushed inwards until it reaches the propositions,
    * the operands of conjunctions and disjunctions are ordered by number,
    * `l V (y \/ l)` is represented as the weak until `y W l` it means; with
      this, negating a weak until twice gives it back.

  The session also remembers, per formula, the rule table that the formula was
  last produced by (`LinearTime.Rules.Simplification`).

  Core only.
-/

import LinearTime.Formula.Basic

namespace LinearTime

/-- The formulas shared so far, newest first, the next free number, and the
    stamp of the rule table that last produced a formula, by its number. -/
structure Session (α : Type) where
  interned : List (Formula α) := []
  nextId : Nat := 0
  produced : List (Nat × Nat) := []

namespace Session

variable {α : Type}

/-- Forgets the shared formulas. Numbers go on ascending. -/
def reset (s : Session α) : Session α := { s with interned := [] }

/-- The number of shared formulas. -/
def size (s : Session α) : Nat := s.interned.length

/-- Whether no formula is shared. -/
def isEmpty (s : Session α) : Bool := s.interned.isEmpty

/-- Whether the rule table with this stamp last produced `f`. -/
def producedBy (s : Session α) (f : Formula α) (stamp : Nat) : Bool :=
  s.produced.lookup f.id == some stamp

/-- Remembers that the rule table with this stamp produced `f`. -/
def markProduced (s : Session α) (f : Formula α) (stamp : Nat) : Session α :=
  { s with produced := (f.id, stamp) :: s.produced }

end Session

/-- A computation that builds formulas in a session. -/
abbrev Build (α : Type) := StateM (Session α)

namespace Formula

variable {α : Type} [BEq α]

/-- Same operator over the same operands, whatever their own numbers. -/
def sameShape : Formula α → Formula α → Bool
  | tt _, tt _ => true
  | ff _, ff _ => true
  | prop _ a, prop _ b => a == b
  | negProp _ p _, negProp _ q _ => p == q
  | next _ f, next _ g => f.same g
  | binary _ op l r, binary _ op' l' r' => op == op' && l.same l' && r.same r'
  | _, _ => false

end Formula

namespace Build

variable {α : Type} [BEq α]

/-! ## §1. Sharing -/

/-- The shared formula of this shape, or a new one with the next number. -/
def intern (make : Nat → Formula α) : Build α (Formula α) := fun s =>
  let new := make s.nextId
  -- the number of the new formula plays no part in its shape
  match s.interned.find? (·.sameShape new) with
  | some f => (f, s)
  | none => (new, { s with interned := new :: s.interned, nextId := s.nextId + 1 })

/-! ## §2. Operators -/

/-- The constant true. -/
def tt : Build α (Formula α) := intern .tt

/-- The constant false. -/
def ff : Build α (Formula α) := intern .ff

/-- An atomic proposition. -/
def prop (atom : α) : Build α (Formula α) := intern (.prop · atom)

/-- The formula `X f`. -/
def next (f : Formula α) : Build α (Formula α) := intern (.next · f)

/-- An operator whose operands are ordered by number. -/
def ordered (op : BinaryOp) (l r : Formula α) : Build α (Formula α) :=
  if l.id ≤ r.id then intern (.binary · op l r) else intern (.binary · op r l)

/-- The formula `l /\ r`, up to the order of its operands. -/
def conj (l r : Formula α) : Build α (Formula α) := ordered .conj l r

/-- The formula `l \/ r`, up to the order of its operands. -/
def disj (l r : Formula α) : Build α (Formula α) := ordered .disj l r

/-- The formula `l U r`. -/
def strongUntil (l r : Formula α) : Build α (Formula α) := intern (.binary · .strongUntil l r)

/-- The formula `l W r`. -/
def weakUntil (l r : Formula α) : Build α (Formula α) := intern (.binary · .weakUntil l r)

/-- The `y` of a disjunction `y \/ l` or `l \/ y`. -/
def alternativeTo? (l : Formula α) : Formula α → Option (Formula α)
  | .binary _ .disj a b => if a.same l then some b else if b.same l then some a else none
  | _ => none

/-- The formula `l V r`, which is `y W l` if `r` is `y \/ l`. -/
def release (l r : Formula α) : Build α (Formula α) :=
  match alternativeTo? l r with
  -- `l V (y \/ l)` is `y W l`
  | some y => weakUntil y l
  | none => intern (.binary · .release l r)

/-- A binary operator applied to operands in logical order. -/
def binary : BinaryOp → Formula α → Formula α → Build α (Formula α)
  | .conj => conj
  | .disj => disj
  | .strongUntil => strongUntil
  | .release => release
  | .weakUntil => weakUntil

/-! ## §3. Negation and derived operators -/

/-- The negation of a formula, pushed inwards. The left operand is negated
    before the right one. -/
def not : Formula α → Build α (Formula α)
  | .tt _ => ff
  | .ff _ => tt
  | .prop id atom => intern (.negProp · id atom)
  | .negProp _ propId atom => pure (.prop propId atom)
  | .next _ f => do next (← not f)
  | .binary _ .conj l r => do
    let l' ← not l
    let r' ← not r
    disj l' r'
  | .binary _ .disj l r => do
    let l' ← not l
    let r' ← not r
    conj l' r'
  | .binary _ .strongUntil l r => do
    let l' ← not l
    let r' ← not r
    release l' r'
  | .binary _ .release l r => do
    let l' ← not l
    let r' ← not r
    strongUntil l' r'
  -- `! (l W r)` is `! r U (! l /\ ! r)`
  | .binary _ .weakUntil l r => do
    let l' ← not l
    let r' ← not r
    strongUntil r' (← conj l' r')

/-- The formula `G f`, which is `false V f`. -/
def always (f : Formula α) : Build α (Formula α) := do release (← ff) f

/-- The formula `F f`, which is `true U f`. -/
def eventually (f : Formula α) : Build α (Formula α) := do strongUntil (← tt) f

/-- The formula `l -> r`, which is `! l \/ r`. -/
def implies (l r : Formula α) : Build α (Formula α) := do disj (← not l) r

end Build
end LinearTime
