/-
  LinearTime.Rules.Standard — the built-in simplifications.

  Idempotence, folding of constants, temporal operators moved out of boolean
  ones, absorption of nested temporal operators and of boolean operands, and
  contradictions.

  Core only.
-/

import LinearTime.Formula.Expression
import LinearTime.Rules.Table

namespace LinearTime.RuleTable

/-! ## §1. The rules as expressions -/

section Laws

private abbrev p : Expression String := .prop "p"
private abbrev q : Expression String := .prop "q"
private abbrev r : Expression String := .prop "r"
private abbrev t : Expression String := .tt
private abbrev f : Expression String := .ff
private abbrev both := Expression.binary (α := String) .conj
private abbrev either := Expression.binary (α := String) .disj
private abbrev unt := Expression.binary (α := String) .strongUntil
private abbrev rel := Expression.binary (α := String) .release
private abbrev nx := Expression.next (α := String)
private abbrev alw := Expression.always (α := String)
private abbrev evt := Expression.eventually (α := String)

/-- Left and right sides of the built-in rules, in the order in which they are
    tried. -/
def standardLaws : List (Expression String × Expression String) :=
  [ (both p p, p),
    (either p p, p),
    (both p t, p),
    (both p f, f),
    (either p t, t),
    (either p f, p),
    (unt p p, p),
    (rel p p, p),
    (unt p f, f),
    (rel p t, t),
    (unt f p, p),
    (rel t p, p),
    (unt p t, t),
    (rel p f, f),
    (nx t, t),
    (nx f, f),
    (both (alw p) (alw q), alw (both p q)),
    (either (evt p) (evt q), evt (either p q)),
    (both (unt p q) (unt r q), unt (both p r) q),
    (either (unt p q) (unt p r), unt p (either q r)),
    (either (rel p q) (rel r q), rel (either p r) q),
    (both (rel p q) (rel p r), rel p (both q r)),
    (both (nx p) (nx q), nx (both p q)),
    (either (nx p) (nx q), nx (either p q)),
    (unt (nx p) (nx q), nx (unt p q)),
    (rel (nx p) (nx q), nx (rel p q)),
    (unt p (evt q), evt q),
    (rel p (alw q), alw q),
    (alw (evt (alw p)), evt (alw p)),
    (evt (alw (evt p)), alw (evt p)),
    (either (alw (evt p)) (alw (evt q)), alw (evt (either p q))),
    (both (evt (alw p)) (evt (alw q)), evt (alw (both p q))),
    (both p (either p q), p),
    (either p (both p q), p),
    (both p (.not p), f),
    (either p (.not p), t) ]

end Laws

/-! ## §2. The rules as a table -/

/-- Builds the two sides of laws as rules, one after the other. -/
def buildLaws : List (Expression String × Expression String) → Build String (List Rule)
  | [] => return []
  | (left, right) :: laws => do
    let pattern ← left.build
    let replacement ← right.build
    return { pattern, replacement } :: (← buildLaws laws)

/-- The built-in rules, in a session that starts with their placeholders and
    the constants. -/
def standardRules : Build String (List Rule) := do
  -- first of all, so that operands are ordered alike in every table
  for name in ["p", "q", "r"] do
    discard (Build.prop name)
  discard Build.tt
  discard Build.ff
  buildLaws standardLaws

/-- The table of the built-in rules. -/
def standard : Stamping RuleTable := do
  let (rules, session) := standardRules.run {}
  return { stamp := ← freshStamp, session, rules }

end LinearTime.RuleTable
