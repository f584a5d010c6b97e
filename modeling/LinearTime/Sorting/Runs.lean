/-
  LinearTime.Sorting.Runs — sorting by the runs that are there already.

  The items are cut into runs: stretches that are sorted, or sorted the other
  way round, where these are long, and pieces of fixed length elsewhere.
  Neighbouring runs are then merged, in an order that depends only on where
  they lie: the deeper a merge lies in the halving of all items, the earlier it
  is made.

  Core only.
-/

import LinearTime.Sorting.Small

namespace LinearTime.Sorting

open ComparisonTree

variable {β : Type}

/-! ## §1. Finding runs -/

/-- Neighbouring items, and whether they are sorted already. -/
structure Run (β : Type) where
  items : List β
  isSorted : Bool

/-- Up to how many items are sorted as halves. -/
def pieceSize : Nat := 32

/-- Follows a run that ends in `last`; `run` holds it, the latest first. -/
def followRun (descending : Bool) (last : β) (run : List β) : List β → ComparisonTree β (List β)
  | [] => return run
  | x :: xs => do
    if (← precedes x last) == descending then followRun descending x (x :: run) xs
    else return run

/-- The longest sorted stretch at the front. A stretch in which each item has to
    stand before the one in front of it counts, and is turned round. -/
def leadingRun : List β → ComparisonTree β (List β)
  | x :: y :: others => do
    -- the first two items decide which way round the run goes
    let descending ← precedes y x
    let run ← followRun descending y [y, x] others
    return if descending then run else run.reverse
  | few => return few

/-- A piece of fixed length at the front: sorted by `settle` if this is to be
    done `early`, otherwise left as it is. -/
def leadingPiece (early : Bool) (settle : List β → ComparisonTree β (List β)) (least : Nat)
    (items : List β) : ComparisonTree β (Run β) := do
  if early then return ⟨← settle (items.take pieceSize), true⟩
  else return ⟨items.take least, false⟩

/-- The run at the front: a sorted stretch if it has at least `least` items. -/
def nextRun (early : Bool) (settle : List β → ComparisonTree β (List β)) (least : Nat)
    (items : List β) : ComparisonTree β (Run β) := do
  if items.length < least then leadingPiece early settle least items
  else
    let run ← leadingRun items
    if run.length < least then leadingPiece early settle least items
    else return ⟨run, true⟩

/-! ## §2. Merging runs -/

/-- The items of a run in order. -/
def Run.inOrder (settle : List β → ComparisonTree β (List β)) (run : Run β) :
    ComparisonTree β (List β) :=
  if run.isSorted then return run.items else settle run.items

/-- Makes one run of two. Two runs that are not sorted stay so. -/
def Run.join (settle : List β → ComparisonTree β (List β)) (left right : Run β) :
    ComparisonTree β (Run β) := do
  if left.isSorted || right.isSorted then
    let front ← left.inOrder settle
    let back ← right.inOrder settle
    return ⟨← merge front back, true⟩
  else return ⟨left.items ++ right.items, false⟩

/-- How deep the boundary at `middle` lies in the halving of `size` items, the
    runs beside it reaching from `first` to `last`: the number of binary digits
    that their centres, as parts of the whole, have in common. -/
def boundaryDepth (size first middle last : Nat) : Nat :=
  -- the centres are scaled to numbers of 62 digits
  let scale := (Nat.pow 2 62 + size - 1) / size
  63 - Nat.log2 ((scale * (first + middle)) ^^^ (scale * (middle + last)))

/-- Joins the last run with those before it whose boundary is at least as deep
    as said; the latest of them comes first, each with the depth of the boundary
    behind it. -/
def joinDeeper (settle : List β → ComparisonTree β (List β)) (depth : Nat) :
    List (Run β × Nat) → Run β → ComparisonTree β (List (Run β × Nat) × Run β)
  | [], last => return ([], last)
  | (left, leftDepth) :: before, last => do
    if depth ≤ leftDepth then joinDeeper settle depth before (← left.join settle last)
    else return ((left, leftDepth) :: before, last)

/-- Cuts what is left of `size` items into runs and joins them as it goes on;
    `last` is the run that ends at `position`. -/
def joinRuns (settle : List β → ComparisonTree β (List β))
    (next : List β → ComparisonTree β (Run β)) (size position : Nat)
    (before : List (Run β × Nat)) (last : Run β) : List β → ComparisonTree β (Run β)
  | [] => do return (← joinDeeper settle 0 before last).2
  | x :: xs => do
    let run ← next (x :: xs)
    let reached := position + run.items.length
    -- what lies deeper than the boundary before the new run is merged now
    let depth := boundaryDepth size (position - last.items.length) position reached
    let (before, last) ← joinDeeper settle depth before last
    joinRuns settle next size reached ((last, depth) :: before) run
      (xs.drop (run.items.length - 1))
termination_by items => items.length
decreasing_by
  rw [List.length_drop, List.length_cons]
  omega

/-- Roughly the square root: one step of Newton's method from a power of two. -/
def roughSqrt (n : Nat) : Nat :=
  let digits := (Nat.log2 (n ||| 1) + 1) / 2
  let guess := Nat.pow 2 digits
  (guess + n / guess) / 2

/-- How long a sorted stretch has to be, among `size` items, to count as a run. -/
def leastRun (size : Nat) : Nat :=
  if size ≤ 64 * 64 then min (size - size / 2) 64 else roughSqrt size

/-- Sorts by runs. Stretches without a run are sorted by `settle`: `early`, in
    pieces, or as late and as much at once as possible. -/
def sortRuns (early : Bool) (settle : List β → ComparisonTree β (List β)) (items : List β) :
    ComparisonTree β (List β) := do
  let next := nextRun early settle (leastRun items.length)
  let first ← next items
  let others := items.drop first.items.length
  let run ← joinRuns settle next items.length first.items.length [] first others
  -- a single run that was never sorted is settled at last
  run.inOrder settle

end LinearTime.Sorting
