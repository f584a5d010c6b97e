/-
  LinearTime.Tableau.Basic — expanding a formula.

  The tableau of a formula is grown branch by branch.  A branch has formulas
  still to be treated, formulas that hold now and formulas that have to hold
  in the next position.  Treating a formula takes the oldest one and moves it
  to those that hold now, adds what its expansion law asks for, and splits the
  branch where the law leaves a choice; a branch with a contradiction is
  dropped.

  A branch with nothing left to treat is completed: it becomes a new node, or
  it is merged into a node that is equivalent under the chosen strategy.  A
  node remembers, for each set of formulas that held on entering it, from
  which nodes it was entered so.  Every new node starts a branch for the
  positions after it.

  The work is a stack of branches, and one `step` treats one formula or
  completes one branch.

  Core only.
-/

import LinearTime.Formula.Obligation
import LinearTime.MarkSet

namespace LinearTime

/-- When a completed branch is merged into a node. -/
inductive Merge where
  /-- Same formulas now, same formulas next, same untils pending. -/
  | identical
  /-- Same formulas next, same untils pending. -/
  | nextAndPending
  deriving DecidableEq, Repr

/-- Formulas under treatment, on the way from the node `origin`. -/
structure Branch (α : Type) where
  origin : Nat
  todo : FormulaSet α
  now : FormulaSet α := .empty
  later : FormulaSet α := .empty

namespace Branch

variable {α : Type}

/-- Asks for a formula, unless it was treated already. -/
def schedule (b : Branch α) (f : Formula α) : Branch α :=
  if b.now.contains f then b else { b with todo := b.todo.insert f }

/-- Counts a formula among those that hold now. -/
def settle (b : Branch α) (f : Formula α) : Branch α := { b with now := b.now.insert f }

/-- Asks for a formula in the next position. -/
def postpone (b : Branch α) (f : Formula α) : Branch α := { b with later := b.later.insert f }

/-- Whether a literal is false or contradicts a formula that holds now. -/
def refutes (b : Branch α) (f : Formula α) : Bool :=
  match f with
  | .ff _ => true
  | _ => b.now.toList.any (·.contradicts f)

/-- The branches that are left when `f` is treated, the one to go on with
    first. -/
def treat (b : Branch α) (f : Formula α) : List (Branch α) :=
  if f.isLiteral then
    if b.refutes f then [] else [b.settle f]
  -- what is guaranteed needs no branch of its own
  else if f.guaranteedBy b.now b.later then [b.settle f]
  else
    let b := b.settle f
    match f with
    | .next _ g => [b.postpone g]
    | .binary _ .conj l r => [(b.schedule l).schedule r]
    -- the alternative that is the right operand is treated first
    | .binary _ .disj l r => [b.schedule r, b.schedule l]
    | .binary _ .strongUntil l r | .binary _ .weakUntil l r =>
      [b.schedule r, (b.schedule l).postpone f]
    | .binary _ .release l r => [(b.schedule l).schedule r, (b.schedule r).postpone f]
    | .tt _ | .ff _ | .prop _ _ | .negProp _ _ _ => [b]

end Branch

/-- One way of entering a node: the formulas that hold meanwhile, and the nodes
    it comes from. -/
structure Tableau.Entry (α : Type) where
  now : FormulaSet α
  origins : IndexSet

/-- A completed node. -/
structure Tableau.Node (α : Type) where
  later : FormulaSet α
  pending : MarkSet
  entries : List (Tableau.Entry α)

/-- The untils of the formula, the nodes so far and the branches to work on. -/
structure Tableau (α : Type) where
  untils : List (Formula α)
  merge : Merge
  nodes : List (Tableau.Node α)
  work : List (Branch α)

namespace Tableau

variable {α : Type}

/-! ## §1. Untils

Every strong until of the formula has a number, by its place in the preorder
of subformulas.  It is the number of the acceptance set it gives rise to. -/

/-- The strong untils of a formula. -/
def untilsOf (root : Formula α) : List (Formula α) := root.subformulas.filter (·.isStrongUntil)

/-- Whether an until holds now without its right operand. -/
def isPending (now later : FormulaSet α) : Formula α → Bool
  | u@(.binary _ _ _ r) => now.contains u && !r.guaranteedBy now later
  | _ => false

/-- The numbers of the untils that hold now without their right operands. -/
def pending (untils : List (Formula α)) (now later : FormulaSet α) : MarkSet :=
  .below untils.length fun i => (untils[i]?).any (isPending now later)

/-- The number of acceptance sets; it is at least one. -/
def acceptanceSets (untils : List (Formula α)) : Nat := max untils.length 1

/-- The acceptance sets of the transitions into a node: those of the untils
    that are not pending. -/
def acceptance (untils : List (Formula α)) (pending : MarkSet) : MarkSet :=
  if untils.isEmpty then .full 1 else pending.complement untils.length

/-- Whether no strong until is among the formulas of now and next. -/
def isSafety (untils : List (Formula α)) (now later : FormulaSet α) : Bool :=
  untils.isEmpty || !(now.toList ++ later.toList).any (·.isStrongUntil)

/-! ## §2. Growing -/

/-- A branch for the position after a node. -/
def successor (origin : Nat) (later : FormulaSet α) : Branch α := { origin, todo := later }

/-- The tableau of a formula before the first step. Node `0` only asks for the
    formula and is never entered. -/
def start (merge : Merge) (root : Formula α) : Tableau α where
  untils := untilsOf root
  merge := merge
  -- the entry of node `0` has no origin
  nodes := [⟨.ofList [root], .empty, [⟨.empty, .empty⟩]⟩]
  work := [successor 0 (.ofList [root])]

/-- Notes that a node was entered from `origin` while the formulas of `now`
    held. -/
def Node.enter (n : Node α) (now : FormulaSet α) (origin : Nat) : Node α :=
  { n with entries := enterOne n.entries }
where
  enterOne : List (Entry α) → List (Entry α)
    | [] => [⟨now, .ofList [origin]⟩]
    | e :: es =>
      if e.now == now then { e with origins := e.origins.insert origin } :: es
      else e :: enterOne es

/-- Whether a completed branch with these untils pending may be merged into a
    node. -/
def Node.admits (merge : Merge) (n : Node α) (b : Branch α) (pending : MarkSet) : Bool :=
  n.later == b.later && n.pending == pending &&
    match merge with
    | .identical => n.entries.any (·.now == b.now)
    | .nextAndPending => true

/-- Turns a branch with nothing left to treat into a way of entering a node. -/
def complete (t : Tableau α) (b : Branch α) : Tableau α :=
  let pending := pending t.untils b.now b.later
  -- the oldest node that admits the branch, if any
  match t.nodes.findIdx? (·.admits t.merge b pending) with
  | some i => { t with nodes := t.nodes.modify i (·.enter b.now b.origin) }
  | none =>
    { t with
      nodes := t.nodes ++ [⟨b.later, pending, [⟨b.now, .ofList [b.origin]⟩]⟩]
      work := successor t.nodes.length b.later :: t.work }

/-- Treats one formula of the topmost branch, or completes it. -/
def step (t : Tableau α) : Tableau α :=
  match t.work with
  | [] => t
  | b :: work =>
    match b.todo.popLeast? with
    | none => { t with work }.complete b
    | some (f, todo) => { t with work := { b with todo }.treat f ++ work }

/-- Takes steps until there is no work, but not more often than told. -/
def run : Nat → Tableau α → Tableau α
  | 0, t => t
  | steps + 1, t => if t.work.isEmpty then t else run steps t.step

/-- More steps than the tableau of a formula takes: with `n` subformulas there
    are at most `2^(3n)` kinds of nodes, and a branch is split up in at most
    `2^(n+2)` steps. -/
def stepLimit (root : Formula α) : Nat := Nat.pow 2 (4 * root.subformulas.length + 4)

/-- The fully grown tableau of a formula. -/
def grow (merge : Merge) (root : Formula α) : Tableau α :=
  run (stepLimit root) (start merge root)

end Tableau
end LinearTime
