/-
  LinearTime.Guard.Ranking — ordering literals over atoms without an order.

  A ranking gives each atom a slot when it is first seen; atoms are then
  compared by slot.  The equality of atoms is whatever their type offers.  If
  it is not transitive an atom may equal atoms in two slots: then it has no
  rank, and asking for it fails.  What was ranked before stays, also after a
  failure.

  Literals whose atoms have one slot each are ordered, and any stable way of
  sorting puts them into the same order.  For all others it matters which
  literals are compared, and when: each comparison may fill a slot or fail.

  Core only.
-/

import LinearTime.Guard.Basic
import LinearTime.Sorting.Quick

namespace LinearTime

/-- The atoms seen so far, by slot. -/
structure Ranking (α : Type) where
  slots : List α := []

/-- Why literals could not be ranked. -/
inductive RankingFault (α : Type) where
  /-- The atom equals the atoms in two slots. -/
  | ambiguous (atom : α)
  /-- The answers of the comparisons contradict each other. -/
  | disorder

/-- The wording of the fault. -/
def RankingFault.message {α : Type} [AtomName α] : RankingFault α → String
  | ambiguous atom => "atom " ++ AtomName.nameOf atom ++ " has a non-transitive equality"
  | disorder => "user-provided comparison function does not correctly implement a total order"

/-- A computation that ranks atoms; the ranking outlasts a failure. -/
abbrev Ranked (α : Type) := ExceptT (RankingFault α) (StateM (Ranking α))

namespace Ranking

variable {α : Type} [BEq α]

/-- The places of the atoms that equal `atom`, counted from `i`. -/
def placesFrom (i : Nat) (atom : α) : List α → List Nat
  | [] => []
  | a :: as => if a == atom then i :: placesFrom (i + 1) atom as else placesFrom (i + 1) atom as

/-- The slots whose atom equals `atom`. -/
def slotsOf (r : Ranking α) (atom : α) : List Nat := placesFrom 0 atom r.slots

/-- The slot of an atom, the next free one if the atom is new. -/
def rank (atom : α) : Ranked α Nat := do
  let r ← get
  match r.slotsOf atom with
  | [] =>
    set (Ranking.mk (r.slots ++ [atom]))
    return r.slots.length
  | [i] => return i
  -- equality of atoms is not transitive
  | _ :: _ :: _ => throw (.ambiguous atom)

/-- Compares literals as `Literal.orderBy` does, with slots in place of atoms. -/
def compare (l m : Literal α) : Ranked α Ordering := do
  match l.atom?, m.atom? with
  | some a, some b =>
    let i ← rank a
    let j ← rank b
    return (Ord.compare i j).then (Literal.polarityOrder l.isNegated m.isNegated)
  | none, none => return .eq
  | none, some _ => return .lt
  | some _, none => return .gt

/-! ## §1. Sorting -/

/-- The literal with its atom replaced by the slot, if there is just one. -/
def slotted? (r : Ranking α) (l : Literal α) : Option (Literal Nat) :=
  match l with
  | .truth => some .truth
  | .positive a => if let [i] := r.slotsOf a then some (.positive i) else none
  | .negative a => if let [i] := r.slotsOf a then some (.negative i) else none

/-- Whether a literal stands before another one or beside it, by slots. -/
def notAfter (l m : Literal Nat) : Bool := (l.orderBy Ord.compare m).isLE

/-- Answers the questions of a tree by comparing. A failed comparison counts as
    "not before"; the first one is what is reported in the end. -/
def answer {γ : Type} (r : Ranking α) (fault : Option (RankingFault α)) :
    ComparisonTree (Literal α) γ → Except (RankingFault α) γ × Ranking α
  | .result value =>
    match fault with
    | none => (.ok value, r)
    | some f => (.error f, r)
  | .contradiction => (.error .disorder, r)
  | .ask l m next =>
    match (compare l m).run.run r with
    | (.ok o, r) => answer r fault (next (o == .lt))
    -- the sorting goes on, so later comparisons may still fill slots
    | (.error f, r) => answer r (fault.or (some f)) (next false)

/-- Ranks the atoms of literals, in order. -/
def rankAtoms : List (Literal α) → Ranked α Unit
  | [] => return
  | l :: ls => do
    if let some atom := l.atom? then discard (rank atom)
    rankAtoms ls

/-- Ranks the atoms of all literals, in order, and sorts the literals. -/
def sort (ls : List (Literal α)) : Ranked α (List (Literal α)) := do
  rankAtoms ls
  let r ← get
  -- with one slot for each atom, all ways of sorting agree; otherwise the questions count
  match ls.mapM fun l => (r.slotted? l).map (·, l) with
  | some slotted => return (slotted.mergeSort fun x y => notAfter x.1 y.1).map (·.2)
  | none =>
    let (sorted, r) := r.answer none (Sorting.sort ls)
    set r
    MonadExcept.ofExcept sorted

end Ranking

/-- Drops the literals that equal the last literal kept. -/
def Guard.dedupAfter {α : Type} [BEq α] (last : Literal α) : List (Literal α) → List (Literal α)
  | [] => []
  | l :: ls => if l == last then dedupAfter last ls else l :: dedupAfter l ls

/-- Drops the repetitions among neighbours. -/
def Guard.dedup {α : Type} [BEq α] : List (Literal α) → List (Literal α)
  | [] => []
  | l :: ls => l :: dedupAfter l ls

/-- The guard with its literals sorted and repetitions dropped. -/
def Guard.normalized {α : Type} [BEq α] (g : Guard α) : Ranked α (Guard α) := do
  return ⟨dedup (← Ranking.sort g.literals)⟩

end LinearTime
