/-
  LinearTime.Automaton.Basic — generalized Büchi automata.

  The initial state is state `0`.  A transition is taken when its guard is
  enabled; acceptance lies on transitions, and a run is accepting if it takes
  transitions of each acceptance set infinitely often.

  Core only.
-/

import LinearTime.Graph.Basic
import LinearTime.Guard.Text
import LinearTime.Text.Grid

namespace LinearTime

/-- A way to a target state. It is a safety transition if no strong until is
    relevant while it is taken. -/
structure Transition (α : Type) where
  guard : Guard α
  target : Nat
  accepting : MarkSet
  safety : Bool

/-- Transitions are equal when all their parts are, guards up to order and
    repetition of literals. -/
instance {α : Type} [BEq α] : BEq (Transition α) :=
  ⟨fun t u => t.target == u.target && t.accepting == u.accepting && t.safety == u.safety
    && t.guard == u.guard⟩

/-- A state with its outgoing transitions, and the tableau node that it stands
    for. -/
structure State (α : Type) where
  id : Nat
  representative : Nat
  transitions : List (Transition α) := []

/-- Adds a transition unless an equal one is there. -/
def State.add {α : Type} [BEq α] (q : State α) (t : Transition α) : State α :=
  if q.transitions.contains t then q else { q with transitions := q.transitions ++ [t] }

/-- States by number, and the number of acceptance sets. -/
structure Automaton (α : Type) where
  states : List (State α)
  acceptanceSets : Nat

namespace Automaton

variable {α : Type}

/-- The number of states. -/
def size (a : Automaton α) : Nat := a.states.length

/-- The number of the initial state. -/
def initial (_ : Automaton α) : Nat := 0

/-- The number of transitions of all states. -/
def transitionCount (a : Automaton α) : Nat :=
  a.states.foldr (fun q n => q.transitions.length + n) 0

/-- The transitions that leave a state; a state that is not there has none. -/
def transitionsOf (a : Automaton α) (q : Nat) : List (Transition α) :=
  ((a.states[q]?).map State.transitions).getD []

/-- The states reached from some states by the transitions that a letter
    enables. -/
def step [BEq α] (a : Automaton α) (states : List Nat) (v : Valuation α) : IndexSet :=
  .ofList (states.flatMap fun q =>
    ((a.transitionsOf q).filter (·.guard.enabled v)).map (·.target))

/-- The automaton as a graph with marks on edges: nodes are labelled `S<id>`,
    actions are `-`. -/
def toGraph (a : Automaton α) : Graph α :=
  let bare : Graph α :=
    a.states.foldl (fun g q => g.addNode { label := some ("S" ++ q.id.repr) })
      { acceptance := ⟨.generalized a.acceptanceSets, .edges⟩ }
  a.states.foldl
    (fun g q => q.transitions.foldl
      (fun g t => (g.addEdge? q.id t.target t.guard "-" { marks := t.accepting }).getD g) g)
    bare

/-- The transitions as a table, one row for each and one for a state without. -/
def text [AtomName α] (a : Automaton α) : String :=
  let row (q : State α) (t : Transition α) : List String :=
    [q.id.repr, t.guard.text, t.target.repr,
      ",".intercalate (t.accepting.toList.map fun i => "acc" ++ i.repr)]
  let rows (q : State α) : List (List String) :=
    if q.transitions.isEmpty then [[q.id.repr, "-", "-", "-"]] else q.transitions.map (row q)
  Text.Grid.render ["State", "Guard", "Target", "Accepting"] (a.states.flatMap rows)

end Automaton
end LinearTime
