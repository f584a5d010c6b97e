/-
  LinearTime.Random.Structure — random words and random graphs.

  A word has a spoke of limited length and a cycle of limited length, with a
  coin for every proposition of every letter.  A graph has a given number of
  nodes, up to a given number of edges at each, guards over two propositions,
  and every mark with probability one third.

  Core only.
-/

import LinearTime.Graph.Basic
import LinearTime.Random.Formula
import LinearTime.Word

namespace LinearTime.Random

variable {σ : Type}

/-- Draws some number of things, one after the other. -/
def times {β : Type} (n : Nat) (question : StateM σ β) : StateM σ (List β) :=
  (List.replicate n ()).mapM fun _ => question

/-! ## §1. Words -/

/-- A letter: a coin for every proposition. -/
def letter (source : Source σ) (names : Nat) : StateM σ (Valuation String) :=
  (List.range names).mapM fun i => do return (propositionName i, ← source.coin)

/-- A word: the length of the spoke, its letters, the length of the cycle, its
    letters. -/
def word (source : Source σ) (names maxSpoke maxCycle : Nat) :
    Except DrawFault (StateM σ (Lasso String)) :=
  if h : 0 < maxCycle then
    .ok do
      let spokeLength ← source.below (maxSpoke + 1) (Nat.succ_pos maxSpoke)
      let spoke ← times spokeLength (letter source names)
      let more ← source.below maxCycle h
      let first ← letter source names
      let rest ← times more (letter source names)
      return ⟨spoke, first :: rest, List.cons_ne_nil _ _⟩
  else .error .emptyCycle

/-! ## §2. Graphs -/

/-- One draw in three hits. -/
def third (source : Source σ) : StateM σ (Fin 3) := source.below 3 (by decide)

/-- The marks of an element; only the carrier has any. -/
def marks (source : Source σ) (a : Acceptance) (on : Carrier) : StateM σ Attributes := do
  if on ≠ a.carrier then return {}
  -- one draw for every set, whether it hits or not
  let hits ← (List.range a.sets).mapM fun i => do return (i, (← third source) == 0)
  return { marks := .ofList ((hits.filter (·.2)).map (·.1)) }

/-- A guard over the first two propositions: each occurs, is negated or is
    left out. -/
def guard (source : Source σ) : StateM σ (Guard String) := do
  let literals ← [0, 1].mapM fun i => do
    let choice ← third source
    return if choice == 0 then [Literal.positive (propositionName i)]
      else if choice == 1 then [Literal.negative (propositionName i)]
      else []
  return ⟨literals.flatten⟩

/-- Adds an edge from `source` to a random node. -/
def addEdge (dice : Source σ) {size : Nat} (source : Fin size) (g : Graph String) :
    StateM σ (Graph String) := do
  let target ← dice.below size source.pos
  let guard ← guard dice
  let attributes ← marks dice g.acceptance .edges
  return (g.addEdge? source target guard "-" attributes).getD g

/-- A graph: where the marks lie, the nodes, then the edges node by node. A
    single acceptance set makes it a Büchi graph. -/
def graph (dice : Source σ) (size maxDegree sets : Nat) : StateM σ (Graph String) := do
  let condition := if sets ≤ 1 then Condition.buchi else .generalized sets
  let acceptance : Acceptance :=
    { condition, carrier := if ← dice.coin then .nodes else .edges }
  let nodes ← times size (marks dice acceptance .nodes)
  let bare : Graph String := nodes.foldl Graph.addNode { acceptance }
  (List.finRange size).foldlM
    (fun g source => do
      let degree ← dice.below (maxDegree + 1) (Nat.succ_pos maxDegree)
      (List.replicate degree.val ()).foldlM (fun g _ => addEdge dice source g) g)
    bare

end LinearTime.Random
