/-
  LinearTime.Rules.Table — simplification rules and ordered tables of them.

  The propositions of a pattern are placeholders for arbitrary formulas.  A
  usable rule has a pattern that is more than a placeholder, and a replacement
  whose placeholders all occur in the pattern; `RuleTable.add` checks both.

  A table has a stamp that no other table, and no earlier state of the same
  table, ever had.  Stamps come from a counter: creating a table takes one,
  and so does every successful addition.

  Core only.
-/

import LinearTime.Formula.Session
import LinearTime.Text.Grid

namespace LinearTime

/-- Every instance of the pattern may be replaced. -/
structure Rule where
  pattern : Formula String
  replacement : Formula String

/-- Why a rule cannot be used. -/
inductive RuleFault where
  | barePlaceholder (pattern : Formula String)
  | unboundPlaceholder (name : String) (pattern replacement : Formula String)

/-- The wording of a fault. -/
def RuleFault.message : RuleFault → String
  | .barePlaceholder pattern =>
    "malformed rewrite rule: pattern " ++ pattern.text ++ " matches every formula"
  | .unboundPlaceholder name pattern replacement =>
    "malformed rewrite rule: placeholder " ++ name ++ " of " ++ replacement.text
      ++ " does not occur in " ++ pattern.text

namespace Rule

/-- The written form. -/
def text (rule : Rule) : String := rule.pattern.text ++ " => " ++ rule.replacement.text

/-- The placeholders of a pattern or a replacement. -/
def placeholders (f : Formula String) : List String := f.subformulas.filterMap Formula.atom?

/-- What is wrong with a rule, if anything. -/
def fault? (rule : Rule) : Option RuleFault :=
  match rule.pattern with
  | .prop _ _ => some (.barePlaceholder rule.pattern)
  | _ =>
    -- whatever a replacement names has to come from the pattern
    let bound := placeholders rule.pattern
    ((placeholders rule.replacement).find? (fun name => !bound.contains name)).map
      (.unboundPlaceholder · rule.pattern rule.replacement)

end Rule

/-- Rules in the order in which they are tried, and the session in which their
    formulas are built. -/
structure RuleTable where
  stamp : Nat
  session : Session String := {}
  rules : List Rule := []

/-- A computation that draws stamps. -/
abbrev Stamping := StateM Nat

/-- A stamp that was never drawn before. -/
def freshStamp : Stamping Nat := fun n => (n, n + 1)

namespace RuleTable

/-- A table without rules. -/
def empty : Stamping RuleTable := do return { stamp := ← freshStamp }

/-- Appends a rule. The result has a new stamp; a rule that cannot be used is
    refused, and then no stamp is drawn. -/
def add (table : RuleTable) (rule : Rule) : ExceptT RuleFault Stamping RuleTable :=
  match rule.fault? with
  | some fault => throw fault
  | none => do
    let stamp ← freshStamp
    return { table with stamp, rules := table.rules ++ [rule] }

/-- Appends rules one after the other, up to the first that is refused. -/
def addAll (table : RuleTable) (rules : List Rule) : ExceptT RuleFault Stamping RuleTable :=
  rules.foldlM add table

/-- The table of some rules whose formulas were built in `session`. -/
def ofRules (session : Session String) (rules : List Rule) :
    ExceptT RuleFault Stamping RuleTable := do
  let stamp ← freshStamp
  -- every rule that is added draws one more stamp
  addAll { stamp, session } rules

/-- Builds formulas in the session of the table. -/
def build {β : Type} (table : RuleTable) (job : Build String β) : β × RuleTable :=
  let (result, session) := job.run table.session
  (result, { table with session })

/-- The number of rules. -/
def size (table : RuleTable) : Nat := table.rules.length

/-- Whether there is no rule. -/
def isEmpty (table : RuleTable) : Bool := table.rules.isEmpty

/-- The rules as a table, one row per rule. -/
def text (table : RuleTable) : String :=
  Text.Grid.render ["#", "Pattern", "Replacement"]
    (table.rules.mapIdx fun i rule => [i.repr, rule.pattern.text, rule.replacement.text])

end RuleTable
end LinearTime
