/-
  LinearTime.Guard.Text — writing and reading guards.

  A guard is written as its literals joined by `&`, the empty one as `TRUE`.
  When reading, blanks around literals and after a `!` do not count; `TRUE` is
  the constant and every other text an atom.

  Core only.
-/

import LinearTime.Guard.Basic
import LinearTime.Text.Blank

namespace LinearTime

/-- Why a text is not a guard; both name the whole text. -/
inductive GuardFault where
  | emptyLiteral (guard : String)
  | bareNegation (guard : String)
  deriving DecidableEq, Repr

/-- The wording of a fault. -/
def GuardFault.message : GuardFault → String
  | .emptyLiteral guard => "empty literal in guard \"" ++ guard ++ "\""
  | .bareNegation guard => "negation without atom in guard \"" ++ guard ++ "\""

namespace Guard

/-- The written form. -/
def text {α : Type} [AtomName α] (g : Guard α) : String :=
  if g.isEmpty then "TRUE" else "&".intercalate (g.literals.map Literal.text)

/-- Reads one literal, without blanks around it; `whole` is the guard it is part of. -/
def readLiteral (whole : String) : List Char → Except GuardFault (Literal String)
  | [] => .error (.emptyLiteral whole)
  | '!' :: cs =>
    match Text.trim cs with
    | [] => .error (.bareNegation whole)
    | atom => .ok (.negative (String.ofList atom))
  | cs => .ok (if cs = "TRUE".toList then .truth else .positive (String.ofList cs))

/-- Reads a guard. The first literal that cannot be read decides the fault. -/
def read (text : String) : Except GuardFault (Guard String) := do
  let literals ← (Text.splitOn '&' text.toList).mapM fun cs => readLiteral text (Text.trim cs)
  return ⟨literals⟩

end Guard
end LinearTime
