/-
  LinearTime.Graph.Label — labels inside attribute lines.

  A label may be any text, but an attribute line ends at `#`, is divided by
  `,` and `=` and loses blanks at its ends.  The characters that could do harm
  are therefore written as `%XX`, one escape for each of their UTF-8 bytes.
  Reading works on bytes: escapes and plain bytes together have to be UTF-8.

  Core only.
-/

import LinearTime.Text.Blank
import LinearTime.Text.Utf8

namespace LinearTime

/-- Why a text is no escaped label; both name the whole text. -/
inductive LabelFault where
  | badEscape (escaped : String)
  | notUtf8 (escaped : String) (fault : Text.Utf8.Fault)
  deriving DecidableEq, Repr

/-- The wording of a fault. -/
def LabelFault.message : LabelFault → String
  | .badEscape escaped => "invalid escape in label \"" ++ escaped ++ "\""
  | .notUtf8 escaped fault => "label \"" ++ escaped ++ "\" is not UTF-8: " ++ fault.message

namespace Label

/-- The characters that end or change an attribute entry, and `%` itself. -/
def needsEscape (c : Char) : Bool :=
  c == '%' || c == ',' || c == '=' || c == '#' || Text.isBlank c || Text.isControl c

/-- The upper-case digit of a number below sixteen. -/
def hexDigit (n : Nat) : Char :=
  if n < 10 then Char.ofNat ('0'.toNat + n) else Char.ofNat ('A'.toNat + (n - 10))

/-- The escape of one byte. -/
def escapeByte (b : UInt8) : List Char := ['%', hexDigit (b.toNat / 16), hexDigit (b.toNat % 16)]

/-- Escapes the characters that need it. -/
def escape (label : List Char) : List Char :=
  label.flatMap fun c =>
    if needsEscape c then (String.utf8EncodeChar c).flatMap escapeByte else [c]

/-- The value of a hexadecimal digit of either case, given as a byte. -/
def hexValue? (b : UInt8) : Option Nat :=
  let n := b.toNat
  if 0x30 ≤ n ∧ n ≤ 0x39 then some (n - 0x30)
  else if 0x41 ≤ n ∧ n ≤ 0x46 then some (n - 0x37)
  else if 0x61 ≤ n ∧ n ≤ 0x66 then some (n - 0x57)
  else none

/-- The byte two characters stand for: two digits, or a plus sign and one. -/
def escapedByte? (high low : UInt8) : Option UInt8 :=
  -- read as a number, which may have a plus sign in front
  if high == 0x2B then (hexValue? low).map UInt8.ofNat
  else
    match hexValue? high, hexValue? low with
    | some h, some l => some (UInt8.ofNat (16 * h + l))
    | _, _ => none

/-- Replaces the escapes by the bytes they stand for. -/
def unescapeBytes? : List UInt8 → Option (List UInt8)
  | [] => some []
  | b :: bs =>
    if b == 0x25 then
      match bs with
      | high :: low :: rest =>
        match escapedByte? high low with
        | some code => (unescapeBytes? rest).map (code :: ·)
        | none => none
      | _ => none
    else (unescapeBytes? bs).map (b :: ·)

/-- Reads an escaped label. -/
def unescape (escaped : List Char) : Except LabelFault (List Char) :=
  match unescapeBytes? (Text.Utf8.encode escaped) with
  | none => .error (.badEscape (String.ofList escaped))
  | some bytes =>
    match Text.Utf8.decode bytes with
    | .ok label => .ok label
    | .error fault => .error (.notUtf8 (String.ofList escaped) fault)

end Label
end LinearTime
