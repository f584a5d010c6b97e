/-
  LinearTime.Sorting.Quick — sorting by parting, and the choice among all ways.

  Many items are parted into those that have to stand before a pivot and the
  others, both of which are sorted in turn.  A pivot is taken from the middle
  of a sample.  If the parts stay large too often, the rest is sorted by runs.

  Core only.
-/

import LinearTime.Sorting.Runs

namespace LinearTime.Sorting

open ComparisonTree

variable {β : Type}

/-! ## §1. Pivots -/

/-- The place of the middle one of three items. -/
def median (items : List β) (i j k : Fin items.length) :
    ComparisonTree β (Fin items.length) := do
  let beforeSecond ← precedes items[i] items[j]
  let beforeThird ← precedes items[i] items[k]
  -- the first item is least or greatest, so the middle is one of the others
  if beforeSecond == beforeThird then
    let secondBeforeThird ← precedes items[j] items[k]
    return if secondBeforeThird == beforeSecond then j else k
  else return i

/-- The place of an item near the middle of the `size` items from `start` on:
    the median of the first, the fifth and the last eighth. A long eighth is
    represented by an item near its own middle, a short one by its first item. -/
def pivotPlace (items : List β) (start size : Nat) (within : start + size ≤ items.length)
    (nonempty : 0 < size) : ComparisonTree β (Fin items.length) := do
  if short : size / 8 < 8 then
    median items ⟨start, by omega⟩ ⟨start + 4 * (size / 8), by omega⟩
      ⟨start + 7 * (size / 8), by omega⟩
  else
    let i ← pivotPlace items start (size / 8) (by omega) (by omega)
    let j ← pivotPlace items (start + 4 * (size / 8)) (size / 8) (by omega) (by omega)
    let k ← pivotPlace items (start + 7 * (size / 8)) (size / 8) (by omega) (by omega)
    median items i j k
termination_by size

/-! ## §2. Parting -/

/-- Parts items by a test, keeping their order; what was parted already is given
    latest first. -/
def part (test : β → ComparisonTree β Bool) (passing failing : List β) :
    List β → ComparisonTree β (List β × List β)
  | [] => return (passing.reverse, failing.reverse)
  | x :: xs => do
    if ← test x then part test (x :: passing) failing xs
    else part test passing (x :: failing) xs

/-- The items that have to stand before the one at `place`, and the others, among
    them that one. -/
def partBelow (items : List β) (place : Fin items.length) :
    ComparisonTree β (List β × List β) := do
  let pivot := items[place]
  let test x := precedes x pivot
  let (below, above) ← part test [] [] (items.take place)
  part test below.reverse (pivot :: above.reverse) (items.drop (place + 1))

/-- The items that the one at `place` need not precede, among them that one, and
    the others. -/
def partUpTo (items : List β) (place : Fin items.length) :
    ComparisonTree β (List β × List β) := do
  let pivot := items[place]
  let test x := do return !(← precedes pivot x)
  let (upTo, above) ← part test [] [] (items.take place)
  part test (pivot :: upTo.reverse) above.reverse (items.drop (place + 1))

/-- Sorts by parting, to at most the given depth. No item has to stand before
    `bound`, if there is one. A pivot that `bound` need not precede has its rank:
    then the items of this rank are set apart. -/
def sortByParts : Nat → Option β → List β → ComparisonTree β (List β)
  | 0, _, items =>
    if items.length ≤ pieceSize then sortHalves items else sortRuns true sortHalves items
  | depth + 1, bound, items => do
    if few : items.length ≤ pieceSize then sortHalves items
    else
      let place ← pivotPlace items 0 items.length (by omega) (by omega)
      let pivot := items[place]
      -- a pivot that equals the bound is the least there is
      let isAbove ← match bound with
        | none => pure true
        | some b => precedes b pivot
      let (below, above) ← if isAbove then partBelow items place else pure ([], items)
      -- nothing stands before the pivot: set its rank apart, to go on with less
      if below.isEmpty then
        let (same, above) ← partUpTo items place
        return same ++ (← sortByParts depth none above)
      else
        -- the part above the pivot is sorted first
        let above ← sortByParts depth (some pivot) above
        let below ← sortByParts depth bound below
        return below ++ above

/-! ## §3. The choice -/

/-- Sorts items: up to twenty by insertion, up to sixty-four by runs and pieces,
    more of them by runs and by parting what lies between. -/
def sort (items : List β) : ComparisonTree β (List β) :=
  if items.length ≤ 20 then insertAll [] items
  else if items.length ≤ 2 * pieceSize then sortRuns true sortHalves items
  else
    sortRuns false (fun stretch =>
      sortByParts (2 * Nat.log2 (stretch.length ||| 1)) none stretch) items

end LinearTime.Sorting
