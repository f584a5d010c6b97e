/-
  LinearTime.Proofs.Pieces — trimming, dividing and counting in texts.

  A trimmed text has no blank at its ends; trimming makes texts trimmed and leaves
  trimmed ones as they are.  Dividing undoes joining, provided that no piece has
  the separator in it:

      splitOn sep (p₀ ++ sep :: p₁ ++ … ++ sep :: pₖ)  =  [p₀, p₁, …, pₖ]

  Decimal digits read back as the number that they were written for, below the
  bound of machine numbers.

  Main results:
    * `trim_eq_self`, `trimmed_trim` — trimming and trimmed texts.
    * `splitOn_intercalate`, `splitFirst?_append` — dividing what was joined.
    * `readNumber_repr` — reading what was counted.
-/

import Mathlib
import LinearTime.Text.Blank
import LinearTime.Text.Decimal

namespace LinearTime.Text

variable {sep c : Char} {cs : List Char} {n : Nat}

/-! ## §1. Trimming -/

/-- The text does not start or end with a blank. -/
structure Trimmed (cs : List Char) : Prop where
  head : ∀ c ∈ cs.head?, isBlank c = false
  last : ∀ c ∈ cs.getLast?, isBlank c = false

instance (cs : List Char) : Decidable (Trimmed cs) :=
  decidable_of_iff (cs.head?.all (!isBlank ·) = true ∧ cs.getLast?.all (!isBlank ·) = true) <| by
    rw [Option.all_eq_true, Option.all_eq_true]
    simp only [Bool.not_eq_true']
    exact ⟨fun h => ⟨h.1, h.2⟩, fun h => ⟨h.head, h.last⟩⟩

theorem trimmed_of_forall (h : ∀ c ∈ cs, isBlank c = false) : Trimmed cs :=
  ⟨fun c hc => h c (List.mem_of_mem_head? hc), fun c hc => h c (List.mem_of_mem_getLast? hc)⟩

/-- What stands between two texts is not at the ends. -/
theorem Trimmed.append {cs ds : List Char} (hcs : Trimmed cs) (hds : Trimmed ds) (hcs' : cs ≠ [])
    (hds' : ds ≠ []) (between : List Char) : Trimmed (cs ++ between ++ ds) where
  head c hc := by
    apply hcs.head c
    rwa [List.append_assoc, List.head?_append_of_ne_nil cs hcs'] at hc
  last c hc := by
    apply hds.last c
    rwa [List.getLast?_append_of_ne_nil _ hds'] at hc

theorem trimStart_eq_self (h : ∀ c ∈ cs.head?, isBlank c = false) : trimStart cs = cs := by
  cases cs with
  | nil => rfl
  | cons c cs =>
    unfold trimStart
    rw [List.dropWhile_cons, h c rfl]
    rfl

/-- A text without blanks around it is not changed by trimming. -/
theorem trim_eq_self (h : Trimmed cs) : trim cs = cs := by
  unfold trim trimEnd
  rw [trimStart_eq_self h.head]
  have hback : trimStart cs.reverse = cs.reverse := by
    apply trimStart_eq_self
    intro c hc
    rw [List.head?_reverse] at hc
    exact h.last c hc
  show (trimStart cs.reverse).reverse = cs
  rw [hback, List.reverse_reverse]

/-- Behind the blanks at its start a text does not start with a blank. -/
theorem head?_trimStart (cs : List Char) : ∀ c ∈ (trimStart cs).head?, isBlank c = false := by
  intro c hc
  have := List.head?_dropWhile_not isBlank cs
  unfold trimStart at hc
  rw [Option.mem_def] at hc
  rw [hc] at this
  simpa using this

/-- What is left after trimming is trimmed. -/
theorem trimmed_trim (cs : List Char) : Trimmed (trim cs) := by
  have hlast : ∀ c ∈ (trim cs).getLast?, isBlank c = false := by
    intro c hc
    unfold trim trimEnd at hc
    rw [List.getLast?_reverse] at hc
    exact head?_trimStart _ c hc
  refine ⟨fun c hc => ?_, hlast⟩
  -- dropping blanks from the end does not change the first character
  obtain ⟨blanks, hsplit⟩ : ∃ blanks, trimStart cs = trim cs ++ blanks := by
    have hsuffix : (trimStart cs).reverse.dropWhile isBlank <:+ (trimStart cs).reverse :=
      List.dropWhile_suffix _
    obtain ⟨front, hfront⟩ := hsuffix
    refine ⟨front.reverse, ?_⟩
    unfold trim trimEnd
    rw [← List.reverse_append, hfront, List.reverse_reverse]
  apply head?_trimStart cs c
  rw [hsplit]
  cases htrim : trim cs with
  | nil => simp [htrim] at hc
  | cons d ds =>
    rw [htrim] at hc
    exact hc

theorem mem_of_mem_trim (h : c ∈ trim cs) : c ∈ cs := by
  unfold trim trimEnd at h
  have hback := (List.dropWhile_sublist isBlank).mem (List.mem_reverse.1 h)
  exact (List.dropWhile_sublist isBlank).mem (List.mem_reverse.1 hback)

/-! ## §2. Dividing -/

/-- Dividing is that of lists. -/
theorem splitOn_eq (sep : Char) (cs : List Char) : splitOn sep cs = cs.splitOn sep := by
  induction cs with
  | nil => rfl
  | cons c cs ih =>
    rw [List.splitOn_cons_eq_if_modifyHead, ← ih]
    have hcons : splitOn sep (c :: cs) = addToPieces sep c (splitOn sep cs) := rfl
    have hne : splitOn sep cs ≠ [] := by
      rw [ih]
      exact List.splitOn_ne_nil _ _
    obtain ⟨piece, pieces, hpieces⟩ := List.exists_cons_of_ne_nil hne
    rw [hcons, hpieces]
    unfold addToPieces
    by_cases hc : c = sep
    · simp [hc]
    · simp [hc]

/-- Dividing gives back the pieces that were joined. -/
theorem splitOn_intercalate {pieces : List (List Char)} (hne : pieces ≠ [])
    (h : ∀ piece ∈ pieces, sep ∉ piece) : splitOn sep ([sep].intercalate pieces) = pieces := by
  rw [splitOn_eq]
  exact List.splitOn_intercalate sep h hne

/-- A piece has characters of the text in it, but not the separator. -/
theorem mem_splitOn {piece : List Char} (h : piece ∈ splitOn sep cs) :
    sep ∉ piece ∧ ∀ c ∈ piece, c ∈ cs := by
  induction cs generalizing piece with
  | nil =>
    obtain rfl := List.mem_singleton.1 h
    exact ⟨List.not_mem_nil, fun c hc => absurd hc List.not_mem_nil⟩
  | cons d cs ih =>
    have hcons : splitOn sep (d :: cs) = addToPieces sep d (splitOn sep cs) := rfl
    rw [hcons] at h
    cases hpieces : splitOn sep cs with
    | nil =>
      rw [splitOn_eq] at hpieces
      exact absurd hpieces (List.splitOn_ne_nil _ _)
    | cons first pieces =>
      rw [hpieces] at h ih
      simp only [addToPieces] at h
      split at h
      next =>
        rcases List.mem_cons.1 h with rfl | h
        · exact ⟨List.not_mem_nil, fun c hc => absurd hc List.not_mem_nil⟩
        · obtain ⟨hsep, hmem⟩ := ih h
          exact ⟨hsep, fun c hc => List.mem_cons_of_mem _ (hmem c hc)⟩
      -- The character goes to the first piece; the others are pieces of the rest.
      next hne =>
        rcases List.mem_cons.1 h with rfl | h
        · obtain ⟨hsep, hmem⟩ := ih List.mem_cons_self
          refine ⟨?_, fun c hc => ?_⟩
          · intro hc
            rcases List.mem_cons.1 hc with rfl | hc
            · exact hne rfl
            · exact hsep hc
          · rcases List.mem_cons.1 hc with rfl | hc
            · exact List.mem_cons_self
            · exact List.mem_cons_of_mem _ (hmem c hc)
        · obtain ⟨hsep, hmem⟩ := ih (List.mem_cons_of_mem _ h)
          exact ⟨hsep, fun c hc => List.mem_cons_of_mem _ (hmem c hc)⟩

/-- There is something before and after a separator. -/
theorem splitFirst?_append {before after : List Char} (h : sep ∉ before) :
    splitFirst? sep (before ++ sep :: after) = some (before, after) := by
  induction before with
  | nil => simp [splitFirst?]
  | cons c before ih =>
    obtain ⟨hc, hbefore⟩ := List.ne_and_not_mem_of_not_mem_cons h
    rw [List.cons_append, splitFirst?, if_neg (Ne.symm hc), ih hbefore]
    rfl

/-- A text is not split at a character that it does not have. -/
theorem splitFirst?_eq_none (h : sep ∉ cs) : splitFirst? sep cs = none := by
  induction cs with
  | nil => rfl
  | cons c cs ih =>
    obtain ⟨hc, hcs⟩ := List.ne_and_not_mem_of_not_mem_cons h
    rw [splitFirst?, if_neg (Ne.symm hc), ih hcs]
    rfl

/-- A text begins with itself. -/
theorem stripStart?_append (start rest : List Char) :
    stripStart? start (start ++ rest) = some rest := by
  induction start with
  | nil => cases rest <;> rfl
  | cons c start ih =>
    rw [List.cons_append, stripStart?, if_pos rfl]
    exact ih

/-! ## §3. Counting -/

/-- Digits read as the number that they denote. -/
theorem readDigits_eq {value : Nat} {ds : List Char} (hdigits : ∀ d ∈ ds, d.isDigit = true)
    (h : Nat.ofDigitChars 10 ds value < numberBound) :
    readDigits value ds = .ok (Nat.ofDigitChars 10 ds value) := by
  induction ds generalizing value with
  | nil => rfl
  | cons d ds ih =>
    have hvalue : value * 10 + (d.toNat - '0'.toNat) = 10 * value + (d.toNat - '0'.toNat) := by
      omega
    rw [Nat.ofDigitChars_cons] at h ⊢
    -- the value read so far is not above the value in the end
    have hle : 10 * value + (d.toNat - '0'.toNat)
        ≤ Nat.ofDigitChars 10 ds (10 * value + (d.toNat - '0'.toNat)) := by
      rw [Nat.ofDigitChars_eq_ofDigitChars_zero]
      have := Nat.le_mul_of_pos_left (10 * value + (d.toNat - '0'.toNat))
        (Nat.pow_pos (n := ds.length) (by decide : 0 < 10))
      omega
    unfold readDigits
    rw [if_pos (hdigits d List.mem_cons_self), hvalue]
    dsimp only
    rw [if_pos (by omega)]
    exact ih (fun d hd => hdigits d (List.mem_cons_of_mem _ hd)) h

theorem isDigit_of_mem_repr (h : c ∈ n.repr.toList) : c.isDigit = true := by
  rw [Nat.repr_eq_ofList_toDigits, String.toList_ofList] at h
  exact Nat.isDigit_of_mem_toDigits (by decide) (by decide) h

theorem repr_ne_nil (n : Nat) : n.repr.toList ≠ [] := by
  rw [Nat.repr_eq_ofList_toDigits, String.toList_ofList]
  exact Nat.toDigits_ne_nil

/-- A number reads as it was written. -/
theorem readNumber_repr (h : n < numberBound) : readNumber n.repr.toList = .ok n := by
  have hvalue : Nat.ofDigitChars 10 n.repr.toList 0 = n := by
    rw [Nat.repr_eq_ofList_toDigits, String.toList_ofList, Nat.ofDigitChars_ten_toDigits]
  have hdigits : ∀ d ∈ n.repr.toList, d.isDigit = true := fun d hd => isDigit_of_mem_repr hd
  have hread : readDigits 0 n.repr.toList = .ok n := by
    rw [readDigits_eq hdigits (by rwa [hvalue]), hvalue]
  cases hds : n.repr.toList with
  | nil => exact absurd hds (repr_ne_nil n)
  | cons d ds =>
    -- a digit is no sign
    have hplus : d ≠ '+' := by
      rintro rfl
      have := hdigits '+' (by rw [hds]; exact List.mem_cons_self)
      exact absurd this (by decide)
    rw [hds] at hread
    unfold readNumber
    split
    next heq => exact absurd heq (List.cons_ne_nil _ _)
    next heq => exact absurd (List.cons.inj heq).1 hplus
    next heq => exact absurd (List.cons.inj heq).1 hplus
    next => exact hread

/-- What is read stays below the bound. -/
theorem readDigits_lt {value : Nat} (hvalue : value < numberBound)
    (h : readDigits value cs = .ok n) : n < numberBound := by
  induction cs generalizing value with
  | nil =>
    obtain rfl := Except.ok.inj h
    exact hvalue
  | cons c cs ih =>
    unfold readDigits at h
    split at h
    · dsimp only at h
      split at h
      next hlt => exact ih hlt h
      next => cases h
    · cases h

/-- Numbers that were read are below the bound. -/
theorem readNumber_lt (h : readNumber cs = .ok n) : n < numberBound := by
  have hzero : 0 < numberBound := by decide
  unfold readNumber at h
  split at h
  · cases h
  · cases h
  · exact readDigits_lt hzero h
  · exact readDigits_lt hzero h

end LinearTime.Text
