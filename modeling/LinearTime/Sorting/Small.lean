/-
  LinearTime.Sorting.Small — sorting a few items.

  Few items are sorted by insertion, or in two halves that are merged from both
  ends at once.  An item moves before another one only if it has to, so items
  of one rank keep their order.

  Core only.
-/

import LinearTime.Sorting.ComparisonTree

namespace LinearTime.Sorting

open ComparisonTree

variable {β : Type}

/-! ## §1. Insertion -/

/-- Moves `x` before the items that it has to precede, from the last one on.
    The items are given last first; `passed` are those it has moved before. -/
def sift (x : β) (passed : List β) : List β → ComparisonTree β (List β)
  | [] => return x :: passed
  | y :: ys => do
    if ← precedes x y then sift x (y :: passed) ys
    else return (y :: ys).reverse ++ x :: passed

/-- Inserts items into sorted ones, one after the other. -/
def insertAll (sorted items : List β) : ComparisonTree β (List β) :=
  items.foldlM (fun sorted x => sift x [] sorted.reverse) sorted

/-! ## §2. Four items -/

/-- Two items in their order. -/
def sortTwo (x y : β) : ComparisonTree β (β × β) := do
  if ← precedes y x then return (y, x) else return (x, y)

/-- Sorts four items by five questions: two pairs, then the least, the greatest,
    and the two that are left. -/
def sortFour (w x y z : β) : ComparisonTree β (List β) := do
  let (a, b) ← sortTwo w x
  let (c, d) ← sortTwo y z
  let leastLast ← precedes c a
  let greatestFirst ← precedes d b
  let least := if leastLast then c else a
  let greatest := if greatestFirst then b else d
  -- neither the least nor the greatest
  let (u, v) := match leastLast, greatestFirst with
    | false, false => (b, c)
    | true, false => (a, b)
    | false, true => (c, d)
    | true, true => (a, d)
  let (u, v) ← sortTwo u v
  return [least, u, v, greatest]

/-! ## §3. Merging -/

/-- A merge of two sorted lists that goes on at one end: what the lists still
    hold, counted from that end, and what was taken, the latest first. -/
structure Merge (β : Type) where
  left : List β
  right : List β
  taken : List β := []

/-- Takes the next item at the front. The right one is taken only if it has to
    stand before the left one; nothing is taken once a list is empty. -/
def Merge.forward (m : Merge β) : ComparisonTree β (Merge β) :=
  match m with
  | ⟨x :: xs, y :: ys, taken⟩ => do
    if ← precedes y x then return ⟨x :: xs, ys, y :: taken⟩
    else return ⟨xs, y :: ys, x :: taken⟩
  | finished => return finished

/-- Takes the next item at the back, the lists being given last first. The left
    one is taken only if the right one has to stand before it. -/
def Merge.backward (m : Merge β) : ComparisonTree β (Merge β) :=
  match m with
  | ⟨x :: xs, y :: ys, taken⟩ => do
    if ← precedes y x then return ⟨xs, y :: ys, x :: taken⟩
    else return ⟨x :: xs, ys, y :: taken⟩
  | finished => return finished

/-- Takes items at one end, by `step`, as often as said. -/
def Merge.repeated (step : Merge β → ComparisonTree β (Merge β)) :
    Nat → Merge β → ComparisonTree β (Merge β)
  | 0, m => return m
  | rounds + 1, m => do repeated step rounds (← step m)

/-- Merges two sorted lists, starting at the end that the shorter one is at. -/
def merge (left right : List β) : ComparisonTree β (List β) := do
  let rounds := left.length + right.length
  if left.length ≤ right.length then
    let m ← Merge.repeated Merge.forward rounds ⟨left, right, []⟩
    return m.taken.reverse ++ m.left ++ m.right
  else
    let m ← Merge.repeated Merge.backward rounds ⟨left.reverse, right.reverse, []⟩
    return m.left.reverse ++ m.right.reverse ++ m.taken

/-- Takes items at the front and at the back in turns, as often as said. -/
def Merge.atBothEnds : Nat → Merge β → Merge β → ComparisonTree β (Merge β × Merge β)
  | 0, front, back => return (front, back)
  | rounds + 1, front, back => do
    let front ← front.forward
    let back ← back.backward
    atBothEnds rounds front back

/-- Merges two sorted lists from both ends, the second one being as long as the
    first or longer by one item. An item that is left over stands in the middle.
    The answers contradict each other if the two ends do not meet. -/
def mergeHalves (left right : List β) : ComparisonTree β (List β) := do
  let (front, back) ← Merge.atBothEnds left.length
    ⟨left, right, []⟩ ⟨left.reverse, right.reverse, []⟩
  -- each end has taken as many items as the first half has
  let untaken := front.left.length + back.left.length
  if untaken = left.length then
    let middle := front.right.take (right.length - left.length)
    return front.taken.reverse ++ middle ++ back.taken
  else if untaken = left.length + 1 ∧ left.length < right.length then
    return front.taken.reverse ++ front.left.take 1 ++ back.taken
  else contradiction

/-! ## §4. Both halves -/

/-- The first four items, sorted, and the others. -/
def sortStart : List β → ComparisonTree β (List β × List β)
  | w :: x :: y :: z :: others => do return (← sortFour w x y z, others)
  | few => return ([], few)

/-- Sorts both halves by insertion and merges them. From eight items on, the
    first four items of each half come first. -/
def sortHalves (items : List β) : ComparisonTree β (List β) := do
  let (left, right) := items.splitAt (items.length / 2)
  if items.length < 8 then
    mergeHalves (← insertAll [] left) (← insertAll [] right)
  else
    let (left, leftOthers) ← sortStart left
    let (right, rightOthers) ← sortStart right
    mergeHalves (← insertAll left leftOthers) (← insertAll right rightOthers)

end LinearTime.Sorting
