/-
  LinearTime.Proofs.Encoding — texts as bytes.

  A text survives being encoded and decoded: behind the lead byte of a character
  come bytes in the ranges that the lead byte fixes, and together they give back
  the code of the character.  The encoding has an ASCII byte only where the text
  has that ASCII character,

      b ∈ encode cs,  b < 0x80   →   the character b is in cs,

  so what is divided at an ASCII byte is divided at the character.

  Main results:
    * `Utf8.decode_encode` — decoding what was encoded.
    * `Utf8.mem_encode_ascii`, `Utf8.mem_decode_ascii` — ASCII bytes are characters,
      and ASCII characters bytes.
-/

import LinearTime.Text.Utf8
import LinearTime.Proofs.Traversals

namespace LinearTime

namespace Text.Utf8

/-! ## §1. Decoding one character -/

/-- The byte lies in the range. -/
def ByteRange.Has (r : ByteRange) (b : UInt8) : Prop := r.1 ≤ b.toNat ∧ b.toNat ≤ r.2

/-- The number that bytes behind a lead byte add to its code. -/
def codeOf (code : Nat) (tail : List UInt8) : Nat :=
  tail.foldl (fun n b => n * 64 + (b.toNat - 0x80)) code

theorem codeOf_cons (code : Nat) (b : UInt8) (tail : List UInt8) :
    codeOf code (b :: tail) = codeOf (code * 64 + (b.toNat - 0x80)) tail := by
  simp only [codeOf, List.foldl_cons]

/-- The bytes are a lead byte with bytes in the ranges that it fixes, and together
    they give the number `n`. -/
def Spells (bytes : List UInt8) (n : Nat) : Prop :=
  ∃ b tail code ranges, bytes = b :: tail ∧ lead b.toNat = some (code, ranges)
    ∧ List.Forall₂ ByteRange.Has ranges tail ∧ codeOf code tail = n

/-- Bytes behind a lead byte, as long as there are some. -/
theorem decodeFrom_partial {index start length code : Nat} {ranges : List ByteRange}
    {tail rest : List UInt8} (hne : ranges ≠ []) (h : List.Forall₂ ByteRange.Has ranges tail) :
    decodeFrom index (some ⟨start, length, code, ranges⟩) (tail ++ rest)
      = (Char.ofNat (codeOf code tail) :: ·)
          <$> decodeFrom (index + tail.length) none rest := by
  induction h generalizing index length code with
  | nil => exact absurd rfl hne
  | @cons r b ranges tail hb h ih =>
    have hindex : index + (b :: tail).length = index + 1 + tail.length := by
      simp only [List.length_cons]
      omega
    have hin : r.1 ≤ b.toNat ∧ b.toNat ≤ r.2 := hb
    rw [List.cons_append, decodeFrom, hindex, codeOf_cons]
    dsimp only
    rw [if_pos hin]
    -- the last byte completes the character
    cases h with
    | nil => rfl
    | cons hb' h => exact ih (List.cons_ne_nil _ _)

/-- Bytes that spell a number decode to its character, whatever follows them. -/
theorem decodeFrom_spelled {index n : Nat} {bytes rest : List UInt8} (h : Spells bytes n) :
    decodeFrom index none (bytes ++ rest)
      = (Char.ofNat n :: ·) <$> decodeFrom (index + bytes.length) none rest := by
  obtain ⟨b, tail, code, ranges, rfl, hlead, hranges, rfl⟩ := h
  have hindex : index + (b :: tail).length = index + 1 + tail.length := by
    simp only [List.length_cons]
    omega
  rw [List.cons_append, decodeFrom, hlead, hindex]
  cases hranges with
  | nil => rfl
  | cons hb h => exact decodeFrom_partial (List.cons_ne_nil _ _) (.cons hb h)

/-! ## §2. Encoding one character -/

theorem toNat_ofNat_of_lt {n : Nat} (h : n < 256) : (UInt8.ofNat n).toNat = n := by
  rw [UInt8.toNat_ofNat']
  exact Nat.mod_eq_of_lt h

/-- Six bits behind the lead byte. -/
theorem toNat_sixBits (n : Nat) : (UInt8.ofNat (n % 64 + 128)).toNat = n % 64 + 128 :=
  toNat_ofNat_of_lt (by omega)

/-- A number below `0x80` is spelled by itself. -/
theorem spells_one {n : Nat} (h : n < 0x80) : Spells [UInt8.ofNat n] n := by
  refine ⟨_, _, n, [], rfl, ?_, .nil, rfl⟩
  rw [toNat_ofNat_of_lt (by omega), lead, if_pos h]

/-- A number below `0x800` is spelled by a lead byte and one more. -/
theorem spells_two {n : Nat} (hlow : 0x80 ≤ n) (hhigh : n < 0x800) :
    Spells [UInt8.ofNat (n / 64 % 32 + 192), UInt8.ofNat (n % 64 + 128)] n := by
  refine ⟨_, _, n / 64, [continuation], rfl, ?_, .cons ?_ .nil, ?_⟩
  · have hcode : n / 64 % 32 + 192 - 0xC0 = n / 64 := by omega
    rw [toNat_ofNat_of_lt (by omega), lead, if_neg (by omega), if_pos (by omega), hcode]
  · unfold ByteRange.Has continuation
    rw [toNat_sixBits]
    omega
  · simp only [codeOf, List.foldl_cons, List.foldl_nil, toNat_sixBits]
    omega

/-- The second byte of three tells apart what is too small and the surrogates. -/
theorem spells_three {n : Nat} (hlow : 0x800 ≤ n) (hhigh : n < 0x10000)
    (hvalid : n < 0xD800 ∨ 0xDFFF < n) :
    Spells [UInt8.ofNat (n / 4096 % 16 + 224), UInt8.ofNat (n / 64 % 64 + 128),
      UInt8.ofNat (n % 64 + 128)] n := by
  have hcode : codeOf (n / 4096) [UInt8.ofNat (n / 64 % 64 + 128), UInt8.ofNat (n % 64 + 128)]
      = n := by
    simp only [codeOf, List.foldl_cons, List.foldl_nil, toNat_sixBits]
    omega
  have hlead : (UInt8.ofNat (n / 4096 % 16 + 224)).toNat = n / 4096 + 224 := by
    rw [toNat_ofNat_of_lt (by omega)]
    omega
  have hlast : continuation.Has (UInt8.ofNat (n % 64 + 128)) := by
    unfold ByteRange.Has continuation
    rw [toNat_sixBits]
    omega
  -- Two lead bytes narrow the range of the second byte.
  by_cases h0 : n / 4096 = 0
  · refine ⟨_, _, n / 4096, [(0xA0, 0xBF), continuation], rfl, ?_, .cons ?_ (.cons hlast .nil),
      hcode⟩
    · rw [hlead, h0]
      rfl
    · unfold ByteRange.Has
      rw [toNat_sixBits]
      omega
  by_cases h13 : n / 4096 = 13
  · refine ⟨_, _, n / 4096, [(0x80, 0x9F), continuation], rfl, ?_, .cons ?_ (.cons hlast .nil),
      hcode⟩
    · rw [hlead, h13]
      rfl
    · unfold ByteRange.Has
      rw [toNat_sixBits]
      omega
  · refine ⟨_, _, n / 4096, [continuation, continuation], rfl, ?_,
      .cons ?_ (.cons hlast .nil), hcode⟩
    · rw [hlead, lead, if_neg (by omega), if_neg (by omega), if_neg (by omega), if_neg (by omega),
        if_pos (by omega), Nat.add_sub_cancel]
    · unfold ByteRange.Has continuation
      rw [toNat_sixBits]
      omega

/-- The second byte of four tells apart what is too small and what is too large. -/
theorem spells_four {n : Nat} (hlow : 0x10000 ≤ n) (hhigh : n < 0x110000) :
    Spells [UInt8.ofNat (n / 262144 % 8 + 240), UInt8.ofNat (n / 4096 % 64 + 128),
      UInt8.ofNat (n / 64 % 64 + 128), UInt8.ofNat (n % 64 + 128)] n := by
  have hcode : codeOf (n / 262144) [UInt8.ofNat (n / 4096 % 64 + 128),
      UInt8.ofNat (n / 64 % 64 + 128), UInt8.ofNat (n % 64 + 128)] = n := by
    simp only [codeOf, List.foldl_cons, List.foldl_nil, toNat_sixBits]
    omega
  have hlead : (UInt8.ofNat (n / 262144 % 8 + 240)).toNat = n / 262144 + 240 := by
    rw [toNat_ofNat_of_lt (by omega)]
    omega
  have hlast (m : Nat) : continuation.Has (UInt8.ofNat (m % 64 + 128)) := by
    unfold ByteRange.Has continuation
    rw [toNat_sixBits]
    omega
  -- Two lead bytes narrow the range of the second byte.
  by_cases h0 : n / 262144 = 0
  · refine ⟨_, _, n / 262144, [(0x90, 0xBF), continuation, continuation], rfl, ?_,
      .cons ?_ (.cons (hlast _) (.cons (hlast _) .nil)), hcode⟩
    · rw [hlead, h0]
      rfl
    · unfold ByteRange.Has
      rw [toNat_sixBits]
      omega
  by_cases h4 : n / 262144 = 4
  · refine ⟨_, _, n / 262144, [(0x80, 0x8F), continuation, continuation], rfl, ?_,
      .cons ?_ (.cons (hlast _) (.cons (hlast _) .nil)), hcode⟩
    · rw [hlead, h4]
      rfl
    · unfold ByteRange.Has
      rw [toNat_sixBits]
      omega
  · refine ⟨_, _, n / 262144, [continuation, continuation, continuation], rfl, ?_,
      .cons (hlast _) (.cons (hlast _) (.cons (hlast _) .nil)), hcode⟩
    rw [hlead, lead, if_neg (by omega), if_neg (by omega), if_neg (by omega), if_neg (by omega),
      if_neg (by omega), if_neg (by omega), if_neg (by omega), if_pos (by omega),
      Nat.add_sub_cancel]

/-- The codes of characters leave out the surrogates. -/
theorem code_valid (c : Char) : c.toNat < 0xD800 ∨ 0xDFFF < c.toNat ∧ c.toNat < 0x110000 := c.valid

/-- The bytes of a character, by the range of its code. -/
theorem utf8EncodeChar_eq (c : Char) : String.utf8EncodeChar c =
    if c.toNat ≤ 127 then [UInt8.ofNat c.toNat]
    else if c.toNat ≤ 2047 then
      [UInt8.ofNat (c.toNat / 64 % 32 + 192), UInt8.ofNat (c.toNat % 64 + 128)]
    else if c.toNat ≤ 65535 then
      [UInt8.ofNat (c.toNat / 4096 % 16 + 224), UInt8.ofNat (c.toNat / 64 % 64 + 128),
        UInt8.ofNat (c.toNat % 64 + 128)]
    else
      [UInt8.ofNat (c.toNat / 262144 % 8 + 240), UInt8.ofNat (c.toNat / 4096 % 64 + 128),
        UInt8.ofNat (c.toNat / 64 % 64 + 128), UInt8.ofNat (c.toNat % 64 + 128)] := rfl

/-- The encoding of a character spells its number. -/
theorem spells_utf8EncodeChar (c : Char) : Spells (String.utf8EncodeChar c) c.toNat := by
  have hvalid := code_valid c
  rw [utf8EncodeChar_eq]
  split_ifs with h1 h2 h3
  · exact spells_one (by omega)
  · exact spells_two (by omega) (by omega)
  · exact spells_three (by omega) (by omega) (by omega)
  · exact spells_four (by omega) (by omega)

/-! ## §3. Texts -/

theorem encode_cons (c : Char) (cs : List Char) :
    encode (c :: cs) = String.utf8EncodeChar c ++ encode cs := rfl

/-- Texts are encoded one after the other. -/
theorem encode_append (cs ds : List Char) : encode (cs ++ ds) = encode cs ++ encode ds :=
  List.flatMap_append

/-- Decoding gives back the text that was encoded. -/
theorem decode_encode (cs : List Char) : decode (encode cs) = .ok cs := by
  have hfrom (index : Nat) : decodeFrom index none (encode cs) = .ok cs := by
    induction cs generalizing index with
    | nil => rfl
    | cons c cs ih =>
      rw [encode_cons, decodeFrom_spelled (spells_utf8EncodeChar c), ih, Char.ofNat_toNat]
      rfl
  exact hfrom 0

/-- An ASCII character is one byte. -/
theorem utf8EncodeChar_ascii {c : Char} (h : c.toNat < 0x80) :
    String.utf8EncodeChar c = [UInt8.ofNat c.toNat] := by
  rw [utf8EncodeChar_eq, if_pos (by omega)]

/-- Other characters have no ASCII byte. -/
theorem utf8EncodeChar_high {c : Char} (h : 0x80 ≤ c.toNat) {b : UInt8}
    (hb : b ∈ String.utf8EncodeChar c) : 0x80 ≤ b.toNat := by
  have hvalid := code_valid c
  rw [utf8EncodeChar_eq, if_neg (by omega)] at hb
  -- every byte of a longer sequence has its highest bit set
  have hsix (n : Nat) : 0x80 ≤ (UInt8.ofNat (n % 64 + 128)).toNat := by
    rw [toNat_sixBits]
    omega
  have hlead (n k : Nat) (hk : 0x80 ≤ k) (hn : n + k < 256) :
      0x80 ≤ (UInt8.ofNat (n + k)).toNat := by
    rw [toNat_ofNat_of_lt hn]
    omega
  split_ifs at hb <;> simp only [List.mem_cons, List.not_mem_nil, or_false] at hb
  · rcases hb with rfl | rfl
    · exact hlead _ _ (by omega) (by omega)
    · exact hsix _
  · rcases hb with rfl | rfl | rfl
    · exact hlead _ _ (by omega) (by omega)
    · exact hsix _
    · exact hsix _
  · rcases hb with rfl | rfl | rfl | rfl
    · exact hlead _ _ (by omega) (by omega)
    · exact hsix _
    · exact hsix _
    · exact hsix _

/-- An ASCII byte in the encoding is an ASCII character of the text. -/
theorem mem_encode_ascii {c : Char} (hc : c.toNat < 0x80) {cs : List Char}
    (h : UInt8.ofNat c.toNat ∈ encode cs) : c ∈ cs := by
  obtain ⟨d, hd, hb⟩ := List.mem_flatMap.1 h
  have hbyte : (UInt8.ofNat c.toNat).toNat = c.toNat := toNat_ofNat_of_lt (by omega)
  by_cases hascii : d.toNat < 0x80
  · rw [utf8EncodeChar_ascii hascii, List.mem_singleton] at hb
    have hcode := congrArg UInt8.toNat hb
    rw [hbyte, toNat_ofNat_of_lt (by omega)] at hcode
    rw [← Char.ofNat_toNat c, hcode, Char.ofNat_toNat]
    exact hd
  · have := utf8EncodeChar_high (by omega) hb
    omega

/-- A character of which bytes are still to come has no ASCII code: before the last
    of them the number read so far is two at least. -/
def Wide (code : Nat) : List ByteRange → Prop
  | [] => True
  | [_] => 2 ≤ code
  | r :: _ :: _ => 1 ≤ code ∨ 0x82 ≤ r.1

/-- The same for a character that may be under way. -/
def WideIfAny : Option Partial → Prop
  | none => True
  | some p => Wide p.code p.ranges

/-- What a lead byte leaves to come is of no ASCII character. -/
theorem wide_lead {b code : Nat} {ranges : List ByteRange}
    (h : lead b = some (code, ranges)) : Wide code ranges := by
  unfold lead at h
  split_ifs at h <;> obtain ⟨rfl, rfl⟩ := Prod.mk.inj (Option.some.inj h)
  -- one byte, then two, three and four
  · trivial
  · show 2 ≤ b - 0xC0
    omega
  · exact .inr (by decide)
  · exact .inl (by decide)
  · show 1 ≤ b - 0xE0 ∨ _
    omega
  · exact .inr (by decide)
  · exact .inl (by decide)
  · show 1 ≤ b - 0xF0 ∨ _
    omega

/-- A lead byte behind which nothing follows is the code. -/
theorem lead_nil {b code : Nat} (h : lead b = some (code, [])) : code = b := by
  unfold lead at h
  split_ifs at h <;> simp_all

/-- The next byte but the last keeps that. -/
theorem Wide.next {code : Nat} {b : UInt8} {r r' : ByteRange} {rs : List ByteRange}
    (h : Wide code (r :: r' :: rs)) (hb : r.1 ≤ b.toNat) :
    Wide (code * 64 + (b.toNat - 0x80)) (r' :: rs) := by
  have h : 1 ≤ code ∨ 0x82 ≤ r.1 := h
  cases rs with
  | nil =>
    show 2 ≤ code * 64 + (b.toNat - 0x80)
    omega
  | cons r'' rs =>
    show 1 ≤ code * 64 + (b.toNat - 0x80) ∨ _
    omega

theorem toNat_ofNat_ascii {c : Char} {n : Nat} (h : c = Char.ofNat n) (hnull : c.toNat ≠ 0) :
    c.toNat = n := by
  subst h
  by_cases hvalid : n.isValidChar
  · rw [Char.toNat_ofNat, if_pos hvalid]
  · rw [Char.toNat_ofNat, if_neg hvalid] at hnull
    exact absurd rfl hnull

/-- An ASCII character comes from the byte of its code. -/
theorem mem_decodeFrom_ascii {c : Char} (hnull : c.toNat ≠ 0) (hc : c.toNat < 0x80)
    {bytes : List UInt8} {cs : List Char} (hmem : c ∈ cs) {index : Nat} {p : Option Partial}
    (h : decodeFrom index p bytes = .ok cs) (hp : WideIfAny p) :
    UInt8.ofNat c.toNat ∈ bytes := by
  induction bytes generalizing index p cs with
  | nil =>
    cases p with
    | none =>
      obtain rfl := Except.ok.inj h
      exact absurd hmem List.not_mem_nil
    | some p => cases h
  | cons b bytes ih =>
    cases p with
    | none =>
      simp only [decodeFrom] at h
      split at h
      next => cases h
      next code hlead =>
        -- a byte that stands for itself
        obtain ⟨ds, hds, rfl⟩ := map_eq_ok h
        rcases List.mem_cons.1 hmem with heq | hmem
        · have hcode := (toNat_ofNat_ascii heq hnull).trans (lead_nil hlead)
          rw [hcode, UInt8.ofNat_toNat]
          exact List.mem_cons_self
        · exact List.mem_cons_of_mem _ (ih hmem hds trivial)
      next code r rs hlead =>
        have hwide : WideIfAny (some ⟨index, 1, code, r :: rs⟩) := wide_lead hlead
        exact List.mem_cons_of_mem _ (ih hmem h hwide)
    | some p =>
      obtain ⟨start, length, code, ranges⟩ := p
      have hwide : Wide code ranges := hp
      simp only [decodeFrom] at h
      split at h
      next => cases h
      next r rs =>
        split at h
        next hb =>
          split at h
          next =>
            -- the last byte of several, whose character has too great a number
            obtain ⟨ds, hds, rfl⟩ := map_eq_ok h
            have hwide : 2 ≤ code := hwide
            rcases List.mem_cons.1 hmem with heq | hmem
            · have := toNat_ofNat_ascii heq hnull
              omega
            · exact List.mem_cons_of_mem _ (ih hmem hds trivial)
          next r' rs =>
            exact List.mem_cons_of_mem _ (ih hmem h (hwide.next hb.1))
        next => cases h

/-- Decoding makes no ASCII characters, but for null, out of other bytes. -/
theorem mem_decode_ascii {c : Char} (hnull : c.toNat ≠ 0) (hc : c.toNat < 0x80)
    {bytes : List UInt8} {cs : List Char} (h : decode bytes = .ok cs) (hmem : c ∈ cs) :
    UInt8.ofNat c.toNat ∈ bytes :=
  mem_decodeFrom_ascii hnull hc hmem h trivial

end Text.Utf8

end LinearTime
