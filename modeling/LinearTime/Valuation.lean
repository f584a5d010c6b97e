/-
  LinearTime.Valuation — one letter of a word.

  A valuation assigns truth values to some atoms; an atom it does not assign
  is false.  It is listed as pairs, an atom at most once.

  Core only.
-/

namespace LinearTime

/-- The truth values of some atoms. -/
abbrev Valuation (α : Type) := List (α × Bool)

namespace Valuation

variable {α : Type} [BEq α]

/-- Assigns a value, in place of the one the atom had. -/
def assign (atom : α) (value : Bool) : Valuation α → Valuation α
  | [] => [(atom, value)]
  | (a, v) :: rest =>
    if a == atom then (a, value) :: rest else (a, v) :: assign atom value rest

/-- The valuation that makes exactly the given atoms true. -/
def ofTrue (atoms : List α) : Valuation α :=
  atoms.foldl (fun v atom => v.assign atom true) []

/-- The value of an atom; unassigned atoms are false. -/
def value (v : Valuation α) (atom : α) : Bool := (v.lookup atom).getD false

end Valuation
end LinearTime
