/-
  LinearTime.Tableau.Automaton — the automaton of a tableau.

  Nodes become states; under the coarser merge strategy nodes with the same
  formulas next become one state.  Every way of entering a node becomes a
  transition from the states it comes from, guarded by the literals among the
  formulas that hold meanwhile.

  Core only.
-/

import LinearTime.Automaton.Basic
import LinearTime.Tableau.Basic

namespace LinearTime.Tableau

variable {α : Type}

/-- Nodes divided into classes: the first node of each, and the class of every
    node. -/
structure Classes where
  first : List Nat := []
  ofNode : List Nat := []

/-- Puts the next node into the first class whose node demands the same, or
    into a new one. -/
def Classes.add (t : Tableau α) (c : Classes) (n : Node α) : Classes :=
  let same (i : Nat) : Bool := (t.nodes[i]?).any fun m => m.later == n.later
  -- under the finer strategy every node is a class of its own
  let found :=
    match t.merge with
    | .identical => none
    | .nextAndPending => c.first.findIdx? same
  match found with
  | some k => { c with ofNode := c.ofNode ++ [k] }
  | none => ⟨c.first ++ [c.ofNode.length], c.ofNode ++ [c.first.length]⟩

/-- The classes of all nodes. -/
def classes (t : Tableau α) : Classes := t.nodes.foldl (Classes.add t) {}

/-- The transitions into a node of class `target`, each with the class it
    comes from. -/
def entering (t : Tableau α) (classOf : Nat → Nat) (target : Nat) (n : Node α) :
    Except (NotLiteral α) (List (Nat × Transition α)) := do
  let perEntry ← n.entries.mapM fun e => do
    let transition : Transition α :=
      { guard := ← Guard.ofFormulas e.now.toList
        target
        accepting := acceptance t.untils n.pending
        safety := isSafety t.untils e.now n.later }
    return e.origins.toList.map fun origin => (classOf origin, transition)
  return perEntry.flatten

/-- The automaton of a fully grown tableau. -/
def toAutomaton [BEq α] (t : Tableau α) : Except (NotLiteral α) (Automaton α) := do
  let c := t.classes
  let classOf (i : Nat) : Nat := c.ofNode[i]?.getD 0
  let perNode ← (t.nodes.zip c.ofNode).mapM fun (n, target) => t.entering classOf target n
  let bare : List (State α) := c.first.mapIdx fun id representative => { id, representative }
  -- a transition is left out if its state has an equal one
  let states := perNode.flatten.foldl
    (fun states (source, transition) => states.modify source (·.add transition)) bare
  return ⟨states, acceptanceSets t.untils⟩

end LinearTime.Tableau

namespace LinearTime

/-- Expands a formula into an automaton. -/
def Formula.toAutomaton {α : Type} [BEq α] (merge : Merge) (f : Formula α) :
    Except (NotLiteral α) (Automaton α) :=
  (Tableau.grow merge f).toAutomaton

end LinearTime
