/-
  LinearTime.Automaton.Product — acceptance of lasso words.

  The product of an automaton with a lasso word has a node for every state and
  position; its edges are the transitions that the letter at the position
  enables.  The word is accepted if a component of the product that can be
  reached from the start has interior edges whose marks cover all acceptance
  sets: a run can enter it and take all of them again and again.

  Core only.
-/

import LinearTime.Automaton.Basic
import LinearTime.Digraph.Components
import LinearTime.Word

namespace LinearTime.Automaton

variable {α : Type} [BEq α]

/-- The number of a state at one of so many positions. -/
def place (positions state position : Nat) : Nat := state * positions + position

/-- The letters of the word, each with the position after it. -/
def readings (w : Lasso α) : List (Valuation α × Nat) :=
  w.letters.zip (w.shift (List.range w.size))

/-- The places that reading a letter in a state leads to, with the marks of the
    transition. -/
def moves (positions : Nat) (q : State α) (reading : Valuation α × Nat) :
    List (Nat × MarkSet) :=
  (q.transitions.filter (·.guard.enabled reading.1)).map fun t =>
    (place positions t.target reading.2, t.accepting)

/-- The moves from every place. -/
def moveTable (a : Automaton α) (w : Lasso α) : Array (List (Nat × MarkSet)) :=
  let readings := readings w
  let positions := readings.length
  (a.states.flatMap fun q => readings.map (moves positions q)).toArray

/-- The places and the moves between them. -/
def product (table : Array (List (Nat × MarkSet))) : Digraph where
  bound := table.size
  nodes := List.range table.size
  successors v := (table[v]?.getD []).map (·.1)

/-- The marks on the moves that stay in a component, move by move; `home` gives
    the component of every place. -/
def interiorMarks (table : Array (List (Nat × MarkSet))) (home : Array Nat) (c : List Nat) :
    List MarkSet :=
  c.flatMap fun v =>
    ((table[v]?.getD []).filter fun move => home[move.1]? == home[v]?).map (·.2)

/-- Whether the automaton accepts the word. -/
def accepts (a : Automaton α) (w : Lasso α) : Bool :=
  let table := a.moveTable w
  let g := product table
  let reached := g.reach (place w.size a.initial 0)
  let components := g.components
  let home := g.homes components
  components.any fun c =>
    let marks := interiorMarks table home c
    -- reached, with at least one move inside, and marks of all sets among these moves
    c.any (fun v => reached.entered[v]?.getD false) && !marks.isEmpty &&
      (MarkSet.unionAll marks).covers a.acceptanceSets

end LinearTime.Automaton
