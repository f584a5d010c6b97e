/-
  LinearTime.Proofs.LabelEscapes — labels as escapes.

  Escapes undo themselves: an escaped character becomes two digits for each of
  its bytes, all others keep their bytes, none of which is `%`.  Of the characters
  that end or change an attribute entry only `%` is left.

  What is read need not have been written.  A `%` must have two digits behind it,
  wherever it stands; this is all that can be wrong before the bytes are decoded:

      no bytes   ↔   some `%` is not followed by two digits

  Reading takes slices of the bytes.  In `unescapeSlices?` they are spelled out: the
  two bytes behind a `%` are asked for, what follows them is taken without asking.
  That slice lies within the bytes, as the digits before it were found.

  Main results:
    * `unescape_escape`, `mem_escape` — reading an escaped label, and what is in it.
    * `unescapeBytes?_eq_none_iff` — malformed escapes.
    * `unescapeSlices?_eq` — no slice leaves the bytes.
-/

import LinearTime.Graph.Label
import LinearTime.Proofs.Encoding

namespace LinearTime
namespace Label

open Text.Utf8

/-! ## §1. Reading byte by byte -/

/-- The byte that is spelled behind a `%`. -/
def spelled? : List UInt8 → Option UInt8
  | high :: low :: _ => escapedByte? high low
  | [] | [_] => none

/-- Behind a `%` two digits are read as one byte. -/
theorem unescapeBytes?_percent (after : List UInt8) : unescapeBytes? (0x25 :: after)
    = (spelled? after).bind fun code => (unescapeBytes? (after.drop 2)).map (code :: ·) := by
  rw [unescapeBytes?.eq_def]
  rcases after with _ | ⟨high, _ | ⟨low, rest⟩⟩
  · rfl
  · rfl
  · simp only [spelled?]
    cases escapedByte? high low <;> rfl

/-- A byte that is no `%` stands for itself. -/
theorem unescapeBytes?_other {b : UInt8} (hb : b ≠ 0x25) (bs : List UInt8) :
    unescapeBytes? (b :: bs) = (unescapeBytes? bs).map (b :: ·) := by
  rw [unescapeBytes?.eq_def]
  exact if_neg (by simpa using hb)

theorem unescapeBytes?_plain {bytes : List UInt8} (h : 0x25 ∉ bytes) (rest : List UInt8) :
    unescapeBytes? (bytes ++ rest) = (unescapeBytes? rest).map (bytes ++ ·) := by
  induction bytes with
  | nil => simp
  | cons b bytes ih =>
    obtain ⟨hb, hbytes⟩ := List.ne_and_not_mem_of_not_mem_cons h
    rw [List.cons_append, unescapeBytes?_other (Ne.symm hb), ih hbytes, Option.map_map]
    rfl

/-! ## §2. Escapes that were written -/

/-- The digits of an escape are ASCII characters that need no escape themselves,
    and they have their values. -/
theorem hexDigit_reads : ∀ n < 16, (hexDigit n).toNat < 0x80 ∧ needsEscape (hexDigit n) = false
    ∧ hexValue? (UInt8.ofNat (hexDigit n).toNat) = some n
    ∧ (UInt8.ofNat (hexDigit n).toNat == 0x2B) = false := by decide

theorem unescapeBytes?_escapeByte (b : UInt8) (rest : List UInt8) :
    unescapeBytes? (encode (escapeByte b) ++ rest) = (unescapeBytes? rest).map (b :: ·) := by
  have hb : b.toNat < 256 := b.toNat_lt
  obtain ⟨hhigh, -, hhighv, hplus⟩ := hexDigit_reads (b.toNat / 16) (by omega)
  obtain ⟨hlow, -, hlowv, -⟩ := hexDigit_reads (b.toNat % 16) (by omega)
  -- The escape is a percent sign with the two digits of the byte.
  have hbytes : encode (escapeByte b) = [0x25, UInt8.ofNat (hexDigit (b.toNat / 16)).toNat,
      UInt8.ofNat (hexDigit (b.toNat % 16)).toNat] := by
    unfold escapeByte
    rw [encode_cons, encode_cons, encode_cons, utf8EncodeChar_ascii (by decide),
      utf8EncodeChar_ascii hhigh, utf8EncodeChar_ascii hlow]
    rfl
  have hcode : escapedByte? (UInt8.ofNat (hexDigit (b.toNat / 16)).toNat)
      (UInt8.ofNat (hexDigit (b.toNat % 16)).toNat) = some b := by
    unfold escapedByte?
    rw [if_neg (by simp [hplus]), hhighv, hlowv]
    show some (UInt8.ofNat (16 * (b.toNat / 16) + b.toNat % 16)) = some b
    rw [Nat.div_add_mod, UInt8.ofNat_toNat]
  rw [hbytes]
  show unescapeBytes? (0x25 :: UInt8.ofNat (hexDigit (b.toNat / 16)).toNat
    :: UInt8.ofNat (hexDigit (b.toNat % 16)).toNat :: rest) = _
  rw [unescapeBytes?_percent, spelled?, hcode]
  rfl

theorem unescapeBytes?_escapeBytes (bytes rest : List UInt8) :
    unescapeBytes? (encode (bytes.flatMap escapeByte) ++ rest)
      = (unescapeBytes? rest).map (bytes ++ ·) := by
  induction bytes with
  | nil => simp [encode]
  | cons b bytes ih =>
    rw [List.flatMap_cons, encode_append, List.append_assoc, unescapeBytes?_escapeByte, ih,
      Option.map_map]
    rfl

/-- Escapes stand for the bytes of the label. -/
theorem unescapeBytes?_escape (label : List Char) :
    unescapeBytes? (encode (escape label)) = some (encode label) := by
  induction label with
  | nil => rfl
  | cons c label ih =>
    have hcons : escape (c :: label)
        = (if needsEscape c then (String.utf8EncodeChar c).flatMap escapeByte else [c])
          ++ escape label := rfl
    rw [hcons, encode_append, encode_cons]
    split
    next => rw [unescapeBytes?_escapeBytes, ih, Option.map_some]
    next hplain =>
      have hne : (0x25 : UInt8) ∉ encode [c] := by
        intro hmem
        have hc := mem_encode_ascii (c := '%') (by decide) hmem
        rw [← List.mem_singleton.1 hc] at hplain
        exact hplain rfl
      rw [unescapeBytes?_plain hne, ih, Option.map_some]
      simp [encode]

/-- Reading an escaped label gives back the label. -/
theorem unescape_escape (label : List Char) : unescape (escape label) = .ok label := by
  unfold unescape
  rw [unescapeBytes?_escape]
  dsimp only
  rw [decode_encode]

/-- An escaped label has no character that needs an escape, but for `%`. -/
theorem mem_escape {label : List Char} {c : Char} (h : c ∈ escape label) :
    c = '%' ∨ needsEscape c = false := by
  obtain ⟨d, -, hc⟩ := List.mem_flatMap.1 h
  split at hc
  next =>
    obtain ⟨b, -, hc⟩ := List.mem_flatMap.1 hc
    have hb : b.toNat < 256 := b.toNat_lt
    simp only [escapeByte, List.mem_cons, List.not_mem_nil, or_false] at hc
    rcases hc with rfl | rfl | rfl
    · exact .inl rfl
    · exact .inr (hexDigit_reads _ (by omega)).2.1
    · exact .inr (hexDigit_reads _ (by omega)).2.1
  next hplain =>
    rw [List.mem_singleton.1 hc]
    exact .inr (Bool.eq_false_iff.2 hplain)

/-- None of the characters of an escaped label ends or changes an attribute entry. -/
theorem harmless_of_mem_escape {label : List Char} {c : Char} (h : c ∈ escape label) :
    c ≠ ',' ∧ c ≠ '=' ∧ c ≠ '#' ∧ Text.isBlank c = false ∧ Text.isControl c = false := by
  rcases mem_escape h with rfl | hneeds
  · decide
  · simp only [needsEscape, Bool.or_eq_false_iff, beq_eq_false_iff_ne] at hneeds
    obtain ⟨⟨⟨⟨⟨-, hcomma⟩, hequals⟩, hcomment⟩, hblank⟩, hcontrol⟩ := hneeds
    exact ⟨hcomma, hequals, hcomment, hblank, hcontrol⟩

/-! ## §3. Malformed escapes -/

/-- Digits and signs are no `%`. -/
theorem ne_percent_of_escapedByte? {high low code : UInt8}
    (h : escapedByte? high low = some code) : high ≠ 0x25 ∧ low ≠ 0x25 := by
  have hvalue : hexValue? 0x25 = none := by decide
  constructor
  · rintro rfl
    simp [escapedByte?, hvalue] at h
  · rintro rfl
    rw [escapedByte?, hvalue] at h
    split at h
    next => cases h
    next => cases hhigh : hexValue? high <;> rw [hhigh] at h <;> cases h

/-- There are no digits above ASCII. -/
theorem escapedByte?_high {high low : UInt8} (h : 0x80 ≤ high.toNat ∨ 0x80 ≤ low.toNat) :
    escapedByte? high low = none := by
  have hvalue {b : UInt8} (hb : 0x80 ≤ b.toNat) : hexValue? b = none := by
    unfold hexValue?
    dsimp only
    rw [if_neg (by omega), if_neg (by omega), if_neg (by omega)]
  rcases h with h | h
  · have hplus : ¬ (high == 0x2B) = true := by
      intro heq
      rw [eq_of_beq heq] at h
      exact absurd h (by decide)
    rw [escapedByte?, if_neg hplus, hvalue h]
  · rw [escapedByte?, hvalue h]
    split
    next => rfl
    next => cases hexValue? high <;> rfl

/-- Nothing is spelled by less than two bytes, or by bytes of other characters. -/
theorem spelled?_eq_none {after : List UInt8}
    (h : after.length < 2 ∨ ∃ b ∈ after.take 2, 0x80 ≤ b.toNat) : spelled? after = none := by
  rcases after with _ | ⟨high, _ | ⟨low, rest⟩⟩
  · rfl
  · rfl
  · rcases h with h | ⟨b, hb, hhigh⟩
    · simp at h
    · have hb : b ∈ [high, low] := hb
      apply escapedByte?_high
      rcases List.mem_cons.1 hb with rfl | hb
      · exact .inl hhigh
      · exact .inr (List.mem_singleton.1 hb ▸ hhigh)

/-- There are no bytes just if some `%` has no two digits behind it, wherever it stands:
    one among the digits of an escape spoils that escape. -/
theorem unescapeBytes?_eq_none_iff {bytes : List UInt8} : unescapeBytes? bytes = none
    ↔ ∃ before after, bytes = before ++ 0x25 :: after ∧ spelled? after = none := by
  generalize hn : bytes.length = n
  induction n using Nat.strong_induction_on generalizing bytes with
  | _ n ih =>
    subst hn
    cases bytes with
    | nil => simp [unescapeBytes?]
    | cons b bs =>
      by_cases hb : b = 0x25
      · subst hb
        rw [unescapeBytes?_percent]
        cases hspelled : spelled? bs with
        | none => exact ⟨fun _ => ⟨[], bs, rfl, hspelled⟩, fun _ => rfl⟩
        | some code =>
          -- two digits stand there, and neither of them is a `%`
          obtain ⟨high, low, rest, rfl⟩ : ∃ high low rest, bs = high :: low :: rest := by
            rcases bs with _ | ⟨high, _ | ⟨low, rest⟩⟩
            · cases hspelled
            · cases hspelled
            · exact ⟨high, low, rest, rfl⟩
          obtain ⟨hhigh, hlow⟩ := ne_percent_of_escapedByte? hspelled
          have hlength : rest.length < (0x25 :: high :: low :: rest).length := by
            simp only [List.length_cons]
            omega
          show (unescapeBytes? rest).map (code :: ·) = none ↔ _
          rw [Option.map_eq_none_iff, ih _ hlength rfl]
          constructor
          · rintro ⟨before, after, rfl, hnone⟩
            exact ⟨0x25 :: high :: low :: before, after, rfl, hnone⟩
          · rintro ⟨before, after, heq, hnone⟩
            rcases before with _ | ⟨x, _ | ⟨y, _ | ⟨z, before⟩⟩⟩
            · obtain rfl := (List.cons.inj heq).2
              rw [hspelled] at hnone
              cases hnone
            · exact absurd (List.cons.inj (List.cons.inj heq).2).1 hhigh
            · exact absurd (List.cons.inj (List.cons.inj (List.cons.inj heq).2).2).1 hlow
            · exact ⟨before, after, (List.cons.inj (List.cons.inj (List.cons.inj heq).2).2).2, hnone⟩
      · rw [unescapeBytes?_other hb, Option.map_eq_none_iff, ih _ (Nat.lt_succ_self _) rfl]
        constructor
        · rintro ⟨before, after, rfl, hnone⟩
          exact ⟨b :: before, after, rfl, hnone⟩
        · rintro ⟨before, after, heq, hnone⟩
          cases before with
          | nil => exact absurd (List.cons.inj heq).1 hb
          | cons x before => exact ⟨before, after, (List.cons.inj heq).2, hnone⟩

/-! ## §4. Slices -/

/-- What follows the first `n` bytes. A slice that starts behind the last byte is a
    fault of the program: then there is no outcome. -/
def sliceFrom? (n : Nat) (bytes : List UInt8) : Option (List UInt8) :=
  if n ≤ bytes.length then some (bytes.drop n) else none

theorem length_le_of_sliceFrom? {n : Nat} {bytes rest : List UInt8}
    (h : sliceFrom? n bytes = some rest) : rest.length ≤ bytes.length := by
  unfold sliceFrom? at h
  split at h
  next =>
    obtain rfl := Option.some.inj h
    simp
  next => cases h

/-- The first `n` bytes, asked for: it is no fault if there are fewer. -/
def firstBytes? (n : Nat) (bytes : List UInt8) : Option (List UInt8) :=
  if n ≤ bytes.length then some (bytes.take n) else none

/-- Replaces the escapes by the bytes they stand for, if they are well-formed. There is
    no outcome at all if a slice leaves the bytes. -/
def unescapeSlices? : List UInt8 → Option (Option (List UInt8))
  | [] => some (some [])
  | b :: tail =>
    if b == 0x25 then
      match (firstBytes? 2 tail).bind spelled? with
      | none => some none
      | some code =>
        match _hslice : sliceFrom? 2 tail with
        | none => none
        | some rest => (unescapeSlices? rest).map (Option.map (code :: ·))
    else (unescapeSlices? tail).map (Option.map (b :: ·))
termination_by bytes => bytes.length
decreasing_by
  · have := length_le_of_sliceFrom? _hslice
    simp only [List.length_cons]
    omega
  · simp

/-- Reads an escaped label by slices. -/
def unescapeInSlices? (escaped : List Char) : Option (Except LabelFault (List Char)) :=
  (unescapeSlices? (encode escaped)).map fun
    | none => .error (.badEscape (String.ofList escaped))
    | some bytes => (decode bytes).mapError (.notUtf8 (String.ofList escaped))

theorem firstBytes?_bind_spelled? (bytes : List UInt8) :
    (firstBytes? 2 bytes).bind spelled? = spelled? bytes := by
  rcases bytes with _ | ⟨high, _ | ⟨low, rest⟩⟩
  · rfl
  · rfl
  · rfl

/-- Where something is spelled there are two bytes, so what follows them can be taken. -/
theorem sliceFrom?_of_spelled? {bytes : List UInt8} {code : UInt8}
    (h : spelled? bytes = some code) : sliceFrom? 2 bytes = some (bytes.drop 2) := by
  apply if_pos
  by_contra hshort
  rw [spelled?_eq_none (.inl (by omega))] at h
  cases h

/-- No slice leaves the bytes. -/
theorem unescapeSlices?_eq (bytes : List UInt8) :
    unescapeSlices? bytes = some (unescapeBytes? bytes) := by
  generalize hn : bytes.length = n
  induction n using Nat.strong_induction_on generalizing bytes with
  | _ n ih =>
    subst hn
    cases bytes with
    | nil =>
      rw [unescapeSlices?]
      rfl
    | cons b tail =>
      rw [unescapeSlices?]
      by_cases hb : b = 0x25
      · subst hb
        rw [if_pos (beq_self_eq_true _), firstBytes?_bind_spelled?, unescapeBytes?_percent]
        cases hspelled : spelled? tail with
        | none => rfl
        | some code =>
          -- Behind an escape two bytes are gone, and both slices are within the rest.
          have hlength : (tail.drop 2).length < (0x25 :: tail).length := by
            simp only [List.length_drop, List.length_cons]
            omega
          have hrest := ih _ hlength _ rfl
          have hslice := sliceFrom?_of_spelled? hspelled
          dsimp only
          split
          next hnone =>
            rw [hslice] at hnone
            cases hnone
          next rest hsome =>
            obtain rfl := Option.some.inj (hslice.symm.trans hsome)
            rw [hrest]
            rfl
      · rw [if_neg (by simpa using hb), unescapeBytes?_other hb,
          ih _ (Nat.lt_succ_self _) _ rfl]
        rfl

theorem unescapeInSlices?_eq (escaped : List Char) :
    unescapeInSlices? escaped = some (unescape escaped) := by
  unfold unescapeInSlices? unescape
  rw [unescapeSlices?_eq]
  cases unescapeBytes? (encode escaped) with
  | none => rfl
  | some bytes =>
    show some ((decode bytes).mapError _) = some _
    dsimp only
    cases decode bytes <;> rfl

/-- Any text, escaped, is read back, and none of its characters can then end or change
    an attribute entry.  Any text can be read, as a label or with a fault: no slice
    leaves its bytes, also if the bytes behind a `%` are too few or belong to some other
    character, and then the escape is at fault. -/
theorem escapes_are_faithful_and_safe (text : List Char) :
    unescape (escape text) = .ok text
      ∧ (∀ c ∈ escape text, c ≠ ',' ∧ c ≠ '=' ∧ c ≠ '#'
          ∧ Text.isBlank c = false ∧ Text.isControl c = false)
      ∧ unescapeInSlices? text = some (unescape text)
      ∧ ∀ before after, encode text = before ++ 0x25 :: after →
          (after.length < 2 ∨ ∃ b ∈ after.take 2, 0x80 ≤ b.toNat) →
            unescape text = .error (.badEscape (String.ofList text)) := by
  refine ⟨unescape_escape text, fun c => harmless_of_mem_escape, unescapeInSlices?_eq text, ?_⟩
  intro before after htext hafter
  have hnone := unescapeBytes?_eq_none_iff.2 ⟨before, after, htext, spelled?_eq_none hafter⟩
  unfold unescape
  rw [hnone]

/-- A `%` before one digit at the end, and one before a character of two bytes. -/
theorem escapes_are_faithful_and_safe_cut :
    unescape "a%2".toList = .error (.badEscape "a%2")
      ∧ unescape "%é0".toList = .error (.badEscape "%é0")
      ∧ unescape (escape "%é,\u00A0".toList) = .ok "%é,\u00A0".toList := by
  obtain ⟨hback, -, -, -⟩ := escapes_are_faithful_and_safe "%é,\u00A0".toList
  obtain ⟨-, -, -, hshort⟩ := escapes_are_faithful_and_safe "a%2".toList
  obtain ⟨-, -, -, hother⟩ := escapes_are_faithful_and_safe "%é0".toList
  refine ⟨?_, ?_, hback⟩
  · exact hshort [0x61] [0x32] (by decide) (.inl (by decide))
  · exact hother [] [0xC3, 0xA9, 0x30] (by decide) (.inr ⟨0xC3, by decide, by decide⟩)

end Label
end LinearTime
