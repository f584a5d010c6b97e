/-
  LinearTime.Word — ultimately periodic words and the truth of formulas on them.

  A lasso word is a finite spoke followed by a non-empty cycle that repeats
  forever.  Its positions are those of spoke and cycle written once; the
  successor of the last one is the first of the cycle.

  A formula is evaluated at all positions together.  The expansion law of a
  temporal operator gives its value at a position from the value at the next
  one, so a stretch of positions is swept from its end to its start, if the
  value behind it is known.  Behind the cycle stands its own first position:
  sweeping it once from a guess settles what stands there, for laws are
  monotone, and sweeping it again gives the values.  Until is the least
  solution, guessed false; release and weak until are the greatest, guessed
  true.

  Core only.
-/

import LinearTime.Formula.Fold
import LinearTime.Valuation

namespace LinearTime

/-- A finite spoke, and a cycle that repeats forever. -/
structure Lasso (α : Type) where
  spoke : List (Valuation α)
  cycle : List (Valuation α)
  cycle_ne_nil : cycle ≠ []

namespace Lasso

variable {α : Type}

/-- The word of these parts; there is none without a cycle. -/
def ofParts? (spoke cycle : List (Valuation α)) : Option (Lasso α) :=
  if h : cycle ≠ [] then some ⟨spoke, cycle, h⟩ else none

/-- What is wrong with a word whose cycle is empty. -/
def emptyCycleMessage : String := "the cycle of an infinite word can not be empty"

/-- The spoke followed by one copy of the cycle. -/
def letters (w : Lasso α) : List (Valuation α) := w.spoke ++ w.cycle

/-- The number of positions. -/
def size (w : Lasso α) : Nat := w.spoke.length + w.cycle.length

/-- The position after `i`. -/
def successor (w : Lasso α) (i : Nat) : Nat :=
  if i + 1 < w.size then i + 1 else w.spoke.length

/-- The letter at any place of the infinite word. -/
def nth (w : Lasso α) (n : Nat) : Valuation α :=
  if n < w.size then w.letters[n]?.getD []
  -- behind the first copy of the cycle
  else w.cycle[(n - w.spoke.length) % w.cycle.length]?.getD []

/-! ## §1. Solving expansion laws -/

/-- The value at a position, from the values of the operands there and the
    value at the next position. -/
abbrev Law := Bool × Bool → Bool → Bool

/-- The first value on a stretch, or the value behind it if it is empty. -/
def ahead (later : Bool) (values : List Bool) : Bool := values.head?.getD later

/-- The values of a law along a stretch, `later` being the value behind it. -/
def sweep (law : Law) (later : Bool) : List (Bool × Bool) → List Bool
  | [] => []
  | p :: ps =>
    let values := sweep law later ps
    law p (ahead later values) :: values

/-- The solution of a law over the operand values at all positions that is
    reached from a guess for the first position of the cycle. -/
def solve (w : Lasso α) (guess : Bool) (law : Law) (operands : List (Bool × Bool)) : List Bool :=
  let spoke := operands.take w.spoke.length
  let cycle := operands.drop w.spoke.length
  -- the law is monotone: one sweep tells whether the guess stands
  let settled := ahead guess (sweep law guess cycle)
  let values := sweep law settled cycle
  sweep law (ahead settled values) spoke ++ values

/-- What stands at the positions, moved to the positions before them: every
    position gets what stood at its successor. -/
def shift {β : Type} (w : Lasso α) (values : List β) : List β :=
  -- behind the last position stands the start of the cycle
  values.drop 1 ++ (values.drop w.spoke.length).take 1

/-! ## §2. Truth -/

/-- The values of an operator at all positions, from those of its operands. -/
def combine (w : Lasso α) (op : BinaryOp) (lefts rights : List Bool) : List Bool :=
  let operands := lefts.zip rights
  match op with
  | .conj => operands.map fun (l, r) => l && r
  | .disj => operands.map fun (l, r) => l || r
  -- until is the least solution of its law, the others are the greatest
  | .strongUntil => w.solve false (fun (l, r) later => r || (l && later)) operands
  | .release => w.solve true (fun (l, r) later => r && (l || later)) operands
  | .weakUntil => w.solve true (fun (l, r) later => r || (l && later)) operands

variable [BEq α]

/-- The values of a literal at all positions; other formulas have none here. -/
def literalTruth (w : Lasso α) : Formula α → List Bool
  | .tt _ => w.letters.map fun _ => true
  | .ff _ => w.letters.map fun _ => false
  | .prop _ a => w.letters.map (·.value a)
  | .negProp _ _ a => w.letters.map fun v => !v.value a
  | .next _ _ | .binary _ _ _ _ => []

/-- The truth values at every position, from the operands upwards. -/
def evaluation (w : Lasso α) : Formula.Fold Id α (List Bool) where
  literal := w.literalTruth
  next := w.shift
  binary := w.combine

/-- The truth value of a formula at every position. -/
def truth (w : Lasso α) (f : Formula α) : List Bool := w.evaluation.value f

/-- Whether the word is a model of the formula. -/
def satisfies (w : Lasso α) (f : Formula α) : Bool := (w.evaluation.run f).head?.getD false

/-- Being a model is truth at the first position. -/
theorem satisfies_eq_head_truth (w : Lasso α) {f : Formula α} (coherent : f.Coherent) :
    w.satisfies f = (w.truth f).head?.getD false := by
  unfold satisfies truth
  rw [w.evaluation.run_eq_value coherent]

end Lasso

/-! ## §3. Printing -/

namespace Valuation

/-- The names of the true atoms, in ascending order, in braces. -/
def text {α : Type} [AtomName α] (v : Valuation α) : String :=
  let names := (v.filter (·.2)).map fun entry => AtomName.nameOf entry.1
  "\x7b" ++ ",".intercalate (names.mergeSort (fun a b => !decide (b < a))) ++ "\x7d"

end Valuation

/-- The letters of the spoke, then those of the cycle in parentheses. -/
def Lasso.text {α : Type} [AtomName α] (w : Lasso α) : String :=
  String.join (w.spoke.map Valuation.text) ++ "("
    ++ String.join (w.cycle.map Valuation.text) ++ ")^w"

end LinearTime
