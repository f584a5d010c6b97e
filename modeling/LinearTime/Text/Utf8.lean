/-
  LinearTime.Text.Utf8 — decoding bytes as UTF-8.

  `decode` reads well-formed sequences only (no surrogates, no overlong forms,
  nothing above U+10FFFF) and says where and how far the first ill-formed one
  reaches.  After a lead byte, the bytes still to come must lie in ranges that
  the lead byte fixes; a character that is partly read keeps those ranges.

  Core only.
-/

namespace LinearTime.Text.Utf8

/-- The first ill-formed sequence: where it starts, and how many of its bytes
    begin a well-formed one (at least one); or the input ends inside it. -/
inductive Fault where
  | malformed (length index : Nat)
  | truncated (index : Nat)
  deriving DecidableEq, Repr

/-- The wording of a fault. -/
def Fault.message : Fault → String
  | .malformed length index =>
    "invalid utf-8 sequence of " ++ length.repr ++ " bytes from index " ++ index.repr
  | .truncated index => "incomplete utf-8 byte sequence from index " ++ index.repr

/-- A range of bytes. -/
abbrev ByteRange := Nat × Nat

/-- The bytes that continue a character when the lead byte allows them all. -/
def continuation : ByteRange := (0x80, 0xBF)

/-- A character of which some bytes are read. -/
structure Partial where
  index : Nat
  length : Nat
  code : Nat
  ranges : List ByteRange

/-- What a lead byte contributes to the code, and the ranges of the bytes that
    have to follow it. -/
def lead (b : Nat) : Option (Nat × List ByteRange) :=
  if b < 0x80 then some (b, [])
  else if 0xC2 ≤ b ∧ b ≤ 0xDF then some (b - 0xC0, [continuation])
  else if b = 0xE0 then some (0, [(0xA0, 0xBF), continuation])
  else if b = 0xED then some (0xD, [(0x80, 0x9F), continuation])
  else if 0xE1 ≤ b ∧ b ≤ 0xEF then some (b - 0xE0, [continuation, continuation])
  else if b = 0xF0 then some (0, [(0x90, 0xBF), continuation, continuation])
  else if b = 0xF4 then some (4, [(0x80, 0x8F), continuation, continuation])
  else if 0xF1 ≤ b ∧ b ≤ 0xF3 then some (b - 0xF0, [continuation, continuation, continuation])
  else none

/-- Decodes the bytes from position `index` on, with a character possibly
    under way. -/
def decodeFrom (index : Nat) : Option Partial → List UInt8 → Except Fault (List Char)
  | none, [] => .ok []
  | some p, [] => .error (.truncated p.index)
  | none, b :: bs =>
    match lead b.toNat with
    | none => .error (.malformed 1 index)
    | some (code, []) => (Char.ofNat code :: ·) <$> decodeFrom (index + 1) none bs
    | some (code, r :: rs) => decodeFrom (index + 1) (some ⟨index, 1, code, r :: rs⟩) bs
  | some p, b :: bs =>
    match p.ranges with
    | [] => .error (.malformed p.length p.index)
    | r :: rs =>
      -- each byte that continues a character adds six digits to its code
      if r.1 ≤ b.toNat ∧ b.toNat ≤ r.2 then
        let code := p.code * 64 + (b.toNat - 0x80)
        match rs with
        | [] => (Char.ofNat code :: ·) <$> decodeFrom (index + 1) none bs
        | _ :: _ => decodeFrom (index + 1) (some ⟨p.index, p.length + 1, code, rs⟩) bs
      else .error (.malformed p.length p.index)

/-- Decodes a whole sequence of bytes. -/
def decode (bytes : List UInt8) : Except Fault (List Char) := decodeFrom 0 none bytes

/-- The bytes of a text. -/
def encode (cs : List Char) : List UInt8 := cs.flatMap String.utf8EncodeChar

end LinearTime.Text.Utf8
