/-
  LinearTime.Text.Decimal — reading machine-size numbers.

  A number is an optional plus sign followed by decimal digits, leading zeros
  allowed, with a value below 2^64.  The characters are taken from left to
  right and the first one that cannot be used decides the fault.

  Core only.
-/

namespace LinearTime.Text

/-- Why a text is not a number. -/
inductive NumberFault where
  | empty
  | strayCharacter
  | tooLarge
  deriving DecidableEq, Repr

/-- The wording of a fault. -/
def NumberFault.message : NumberFault → String
  | .empty => "cannot parse integer from empty string"
  | .strayCharacter => "invalid digit found in string"
  | .tooLarge => "number too large to fit in target type"

/-- Numbers stay below this bound. -/
def numberBound : Nat := UInt64.size

/-- Reads digits onto the number read so far. -/
def readDigits (value : Nat) : List Char → Except NumberFault Nat
  | [] => .ok value
  | c :: cs =>
    if c.isDigit then
      let value' := value * 10 + (c.toNat - '0'.toNat)
      if value' < numberBound then readDigits value' cs else .error .tooLarge
    else .error .strayCharacter

/-- Reads a number: a plus sign may stand in front of its digits. -/
def readNumber : List Char → Except NumberFault Nat
  | [] => .error .empty
  | ['+'] => .error .strayCharacter
  | '+' :: cs => readDigits 0 cs
  | cs => readDigits 0 cs

end LinearTime.Text
