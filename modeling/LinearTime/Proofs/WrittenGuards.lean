/-
  LinearTime.Proofs.WrittenGuards — guards that read as they were written.

  A guard is written as its literals with `&` between them.  A literal is legible,
  that is told from all others by its text, if its atom can stand between two `&`
  and, where it is not negated, is neither taken for a negation nor for the
  constant.  Reading gives legible literals only, so these are the ones that are
  found again.  In a graph a comment sign or a line end would cut the text short,
  so there a guard has to be writable.  A guard without literals is written as
  the constant, and so it is read.

  Main results:
    * `Guard.plain_text`, `Guard.read_text` — a guard that is written.
    * `Guard.legible_of_read`, `Guard.writable_of_read` — a guard that is read.
    * `Guard.reads_back_iff_legible` — the guards that come back from their texts.
-/

import LinearTime.Proofs.Traversals
import LinearTime.Proofs.WrittenLines

namespace LinearTime

open Text

/-! ## §1. Literals -/

/-- What can stand between two `&`. -/
structure Guard.Name (cs : List Char) : Prop where
  ne_nil : cs ≠ []
  trimmed : Trimmed cs
  whole : '&' ∉ cs

instance (cs : List Char) : Decidable (Guard.Name cs) :=
  decidable_of_iff (cs ≠ [] ∧ Trimmed cs ∧ '&' ∉ cs) ⟨fun h => ⟨h.1, h.2.1, h.2.2⟩,
    fun h => ⟨h.1, h.2, h.3⟩⟩

/-- What can stand between two `&` on the line of a guard. -/
structure Guard.Token (cs : List Char) : Prop where
  plain : Plain cs
  whole : '&' ∉ cs

instance (cs : List Char) : Decidable (Guard.Token cs) :=
  decidable_of_iff (Plain cs ∧ '&' ∉ cs) ⟨fun h => ⟨h.1, h.2⟩, fun h => ⟨h.1, h.2⟩⟩

theorem Guard.Token.name {cs : List Char} (h : Guard.Token cs) : Guard.Name cs :=
  ⟨h.plain.ne_nil, h.plain.trimmed, h.whole⟩

/-- A name without comment signs and line feeds can stand on a line. -/
theorem Guard.Name.token {cs : List Char} (h : Guard.Name cs) (hcomment : '#' ∉ cs)
    (hfeed : '\n' ∉ cs) : Guard.Token cs :=
  ⟨⟨h.ne_nil, h.trimmed, hcomment, hfeed⟩, h.whole⟩

namespace Literal

variable {l : Literal String}

/-- The literal is told from the others by its text: the atom is a name, and without
    negation it is neither taken for a negation nor for the constant. -/
def Legible : Literal String → Prop
  | .truth => True
  | .positive a => Guard.Name a.toList ∧ a.toList.head? ≠ some '!' ∧ a ≠ "TRUE"
  | .negative a => Guard.Name a.toList

instance : (l : Literal String) → Decidable l.Legible
  | .truth => inferInstanceAs (Decidable True)
  | .positive a =>
    inferInstanceAs (Decidable (Guard.Name a.toList ∧ a.toList.head? ≠ some '!' ∧ a ≠ "TRUE"))
  | .negative a => inferInstanceAs (Decidable (Guard.Name a.toList))

/-- The literal reads as it is written. -/
def Writable : Literal String → Prop
  | .truth => True
  | .positive a => Guard.Token a.toList ∧ a.toList.head? ≠ some '!' ∧ a ≠ "TRUE"
  | .negative a => Guard.Token a.toList

instance : (l : Literal String) → Decidable l.Writable
  | .truth => inferInstanceAs (Decidable True)
  | .positive a =>
    inferInstanceAs (Decidable (Guard.Token a.toList ∧ a.toList.head? ≠ some '!' ∧ a ≠ "TRUE"))
  | .negative a => inferInstanceAs (Decidable (Guard.Token a.toList))

theorem toList_text_negative (a : String) : (negative a).text.toList = '!' :: a.toList :=
  String.toList_append

/-- A literal that can be written can be told from the others. -/
theorem Writable.legible (h : l.Writable) : l.Legible := by
  cases l with
  | truth => trivial
  | positive a => exact ⟨h.1.name, h.2⟩
  | negative a => exact Guard.Token.name h

/-- Legible literals can stand on a line if no character of theirs ends it. -/
theorem Legible.writable (h : l.Legible) (hcomment : '#' ∉ l.text.toList)
    (hfeed : '\n' ∉ l.text.toList) : l.Writable := by
  cases l with
  | truth => trivial
  | positive a => exact ⟨h.1.token hcomment hfeed, h.2⟩
  | negative a =>
    rw [toList_text_negative] at hcomment hfeed
    exact Guard.Name.token h (List.not_mem_of_not_mem_cons hcomment)
      (List.not_mem_of_not_mem_cons hfeed)

/-- The text of a literal is a name. -/
theorem name_text (h : l.Legible) : Guard.Name l.text.toList := by
  cases l with
  | truth => exact ⟨by decide, by decide, by decide⟩
  | positive a => exact h.1
  | negative a =>
    have h : Guard.Name a.toList := h
    rw [toList_text_negative]
    -- the negation is in front, so only the end of the name is left to see
    exact {
      ne_nil := List.cons_ne_nil _ _
      trimmed := {
        head := by
          intro c hc
          obtain rfl := Option.some.inj hc
          rfl
        last := by
          intro c hc
          rw [List.getLast?_cons_of_ne_nil h.ne_nil] at hc
          exact h.trimmed.last c hc }
      whole := List.not_mem_cons_of_ne_of_not_mem (by decide) h.whole }

/-- The text of a literal that can be written can stand on a line. -/
theorem token_text (h : l.Writable) : Guard.Token l.text.toList := by
  have hname := name_text h.legible
  cases l with
  | truth => exact hname.token (by decide) (by decide)
  | positive a => exact h.1
  | negative a =>
    have h : Guard.Token a.toList := h
    rw [toList_text_negative] at hname ⊢
    exact hname.token (List.not_mem_cons_of_ne_of_not_mem (by decide) h.plain.comment)
      (List.not_mem_cons_of_ne_of_not_mem (by decide) h.plain.feed)

end Literal

namespace Guard

/-- A literal that is told from the others reads back from its text. -/
theorem readLiteral_text {l : Literal String} (h : l.Legible) (whole : String) :
    readLiteral whole (trim l.text.toList) = .ok l := by
  rw [trim_eq_self (Literal.name_text h).trimmed]
  cases l with
  | truth => rfl
  | positive a =>
    obtain ⟨hname, hnegation, hconstant⟩ := h
    have htext : (Literal.positive a).text = a := rfl
    rw [htext]
    -- A positive atom is neither empty, nor a negation, nor the constant.
    unfold readLiteral
    split
    next hnil => exact absurd hnil hname.ne_nil
    next cs hcs => exact absurd (by rw [hcs]; rfl) hnegation
    next =>
      rw [if_neg fun heq => hconstant (String.toList_inj.1 heq), String.ofList_toList]
  | negative a =>
    have h : Name a.toList := h
    rw [Literal.toList_text_negative]
    simp only [readLiteral]
    rw [trim_eq_self h.trimmed]
    split
    next hnil => exact absurd hnil h.ne_nil
    next => rw [String.ofList_toList]

/-- Whatever is read between two `&` is legible, and it is made of what stands there. -/
theorem legible_of_readLiteral {whole : String} {cs : List Char} {l : Literal String}
    (htrimmed : Trimmed cs) (hwhole : '&' ∉ cs) (h : readLiteral whole cs = .ok l) :
    l.Legible ∧ ∀ c ∈ l.text.toList, c ∈ cs := by
  unfold readLiteral at h
  split at h
  next => cases h
  -- Behind the sign of negation the atom is trimmed.
  next ds =>
    split at h
    next => cases h
    next atom hne =>
      obtain rfl := Except.ok.inj h
      have hsub : ∀ c ∈ trim ds, c ∈ '!' :: ds := fun c hc =>
        List.mem_cons_of_mem _ (mem_of_mem_trim hc)
      rw [Literal.toList_text_negative, String.toList_ofList]
      constructor
      · show Name (String.ofList (trim ds)).toList
        rw [String.toList_ofList]
        exact ⟨hne, trimmed_trim ds, fun hc => hwhole (hsub _ hc)⟩
      · intro c hc
        rcases List.mem_cons.1 hc with rfl | hc
        · exact List.mem_cons_self
        · exact hsub c hc
  next hnil hnegation =>
    obtain rfl := Except.ok.inj h
    split
    next hconstant =>
      subst hconstant
      exact ⟨trivial, fun c hc => hc⟩
    next hconstant =>
      have htext : (Literal.positive (String.ofList cs)).text.toList = cs := String.toList_ofList
      rw [htext]
      refine ⟨?_, fun c hc => hc⟩
      show Name (String.ofList cs).toList ∧ _ ∧ _
      rw [String.toList_ofList]
      refine ⟨⟨hnil, htrimmed, hwhole⟩, fun hhead => ?_, fun heq => ?_⟩
      · obtain ⟨ds, rfl⟩ := List.head?_eq_some_iff.1 hhead
        exact hnegation ds rfl
      · exact hconstant (by rw [← heq, String.toList_ofList])

/-! ## §2. Guards -/

variable {α : Type} {g : Guard String}

/-- The guard that is written: without literals it is the constant. -/
def spelledOut (g : Guard α) : Guard α := if g.isEmpty then ⟨[.truth]⟩ else g

/-- All literals are told from the others by their texts. -/
def Legible (g : Guard String) : Prop := ∀ l ∈ g.literals, l.Legible

instance (g : Guard String) : Decidable g.Legible :=
  inferInstanceAs (Decidable (∀ l ∈ g.literals, l.Legible))

/-- All literals read as they are written. -/
def Writable (g : Guard String) : Prop := ∀ l ∈ g.literals, l.Writable

instance (g : Guard String) : Decidable g.Writable :=
  inferInstanceAs (Decidable (∀ l ∈ g.literals, l.Writable))

/-- A guard that can be written can be told from the others. -/
theorem Writable.legible (h : g.Writable) : g.Legible := fun l hl => (h l hl).legible

/-- Spelling out the constant does not change the text. -/
theorem text_spelledOut [AtomName α] (g : Guard α) : g.spelledOut.text = g.text := by
  unfold spelledOut
  split
  next hempty =>
    unfold text
    rw [if_pos hempty]
    rfl
  next => rfl

theorem spelledOut_eq_self {g : Guard α} (h : g.literals ≠ []) : g.spelledOut = g := by
  unfold spelledOut isEmpty
  rw [if_neg (by simpa using h)]

/-- A guard that is spelled out has a literal. -/
theorem literals_spelledOut_ne_nil (g : Guard α) : g.spelledOut.literals ≠ [] := by
  unfold spelledOut isEmpty
  split
  next => exact List.cons_ne_nil _ _
  next hne => simpa using hne

/-- What holds of the constant and of all literals holds of what is written. -/
theorem forall_mem_spelledOut {P : Literal α → Prop} {g : Guard α} (htruth : P .truth)
    (h : ∀ l ∈ g.literals, P l) : ∀ l ∈ g.spelledOut.literals, P l := by
  unfold spelledOut
  split
  next => exact List.forall_mem_singleton.2 htruth
  next => exact h

theorem Writable.spelledOut (h : g.Writable) : g.spelledOut.Writable :=
  forall_mem_spelledOut trivial h

/-- The line is made of the literals. -/
theorem toList_text (g : Guard String) :
    g.text.toList = ['&'].intercalate (g.spelledOut.literals.map fun l => l.text.toList) := by
  rw [← text_spelledOut, text, isEmpty, if_neg (by simpa using literals_spelledOut_ne_nil g),
    String.toList_intercalate, List.map_map]
  rfl

/-- The line of a guard that can be written is plain. -/
theorem plain_text (h : g.Writable) : Plain g.text.toList := by
  rw [toList_text]
  apply plain_intercalate (by decide) (by decide) (by simpa using literals_spelledOut_ne_nil g)
  intro piece hpiece
  obtain ⟨l, hl, rfl⟩ := List.mem_map.1 hpiece
  exact (Literal.token_text (h.spelledOut l hl)).plain

/-- Reading the line of a guard. -/
theorem read_text (h : g.Legible) : read g.text = .ok g.spelledOut := by
  have hlegible : ∀ l ∈ g.spelledOut.literals, l.Legible := forall_mem_spelledOut trivial h
  -- no literal contains the separator, so it divides the text where it was put
  have hpieces : splitOn '&' g.text.toList
      = g.spelledOut.literals.map fun l => l.text.toList := by
    rw [toList_text]
    apply splitOn_intercalate (by simpa using literals_spelledOut_ne_nil g)
    intro piece hpiece
    obtain ⟨l, hl, rfl⟩ := List.mem_map.1 hpiece
    exact (Literal.name_text (hlegible l hl)).whole
  have hliterals : (g.spelledOut.literals.map fun l => l.text.toList).mapM
      (fun cs => readLiteral g.text (trim cs)) = .ok g.spelledOut.literals := by
    rw [List.mapM_map]
    have heach := mapM_eq_ok (g := id) _ fun l hl => readLiteral_text (hlegible l hl) g.text
    rwa [List.map_id] at heach
  unfold read
  rw [hpieces, hliterals]
  rfl

/-- There is a literal for each piece, and it is read from that piece. -/
theorem of_read {text : String} (h : read text = .ok g) : g.literals ≠ []
    ∧ ∀ l ∈ g.literals, ∃ piece ∈ splitOn '&' text.toList,
        readLiteral text (trim piece) = .ok l := by
  unfold read at h
  generalize hread : List.mapM (m := Except GuardFault) _ _ = literals at h
  cases literals with
  | error fault => cases h
  | ok literals =>
    obtain rfl := Except.ok.inj h
    refine ⟨?_, fun l hl => mem_of_mapM_eq_ok hread hl⟩
    -- there is one piece at least
    have hlength : literals.length = _ := length_of_mapM_eq_ok hread
    rw [splitOn_eq] at hlength
    have hpieces := List.length_pos_of_ne_nil (List.splitOn_ne_nil '&' text.toList)
    show literals ≠ []
    exact List.ne_nil_of_length_pos (by omega)

/-- Whatever is read is legible, and it is made of the characters of the text. -/
theorem legible_of_read {text : String} (h : read text = .ok g) :
    ∀ l ∈ g.literals, l.Legible ∧ ∀ c ∈ l.text.toList, c ∈ text.toList := by
  intro l hl
  obtain ⟨piece, hpiece, hliteral⟩ := (of_read h).2 l hl
  obtain ⟨hwhole, hsub⟩ := mem_splitOn hpiece
  obtain ⟨hlegible, htext⟩ := legible_of_readLiteral (trimmed_trim piece)
    (fun hc => hwhole (mem_of_mem_trim hc)) hliteral
  exact ⟨hlegible, fun c hc => hsub c (mem_of_mem_trim (htext c hc))⟩

/-- What a plain line is read as. -/
theorem writable_of_read {text : String} (hplain : Plain text.toList) (h : read text = .ok g) :
    g.literals ≠ [] ∧ g.Writable := by
  refine ⟨(of_read h).1, fun l hl => ?_⟩
  obtain ⟨hlegible, hsub⟩ := legible_of_read h l hl
  exact hlegible.writable (fun hc => hplain.comment (hsub _ hc)) fun hc => hplain.feed (hsub _ hc)

/-- A guard with literals is read back from its text just if all its literals are
    legible.  Whatever text a guard is read from, it is of this kind, so its own text
    gives it back again. -/
theorem reads_back_iff_legible (g : Guard String) (text : String) :
    (g.literals ≠ [] → (read g.text = .ok g ↔ g.Legible))
      ∧ (read text = .ok g → g.literals ≠ [] ∧ g.Legible ∧ read g.text = .ok g) := by
  have hback (hne : g.literals ≠ []) (h : g.Legible) : read g.text = .ok g := by
    rw [read_text h, spelledOut_eq_self hne]
  have hread {text : String} (h : read text = .ok g) : g.literals ≠ [] ∧ g.Legible :=
    ⟨(of_read h).1, fun l hl => (legible_of_read h l hl).1⟩
  constructor
  · intro hne
    exact ⟨fun h => (hread h).2, hback hne⟩
  · intro h
    obtain ⟨hne, hlegible⟩ := hread h
    exact ⟨hne, hlegible, hback hne hlegible⟩

/-- Blanks go, but a second negation and a comment sign stay. -/
theorem reads_back_iff_legible_loose :
    ∃ g : Guard String, read " a#b &! !c\n&TRUE" = .ok g
      ∧ g = ⟨[.positive "a#b", .negative "!c", .truth]⟩
      ∧ g.text = "a#b&!!c&TRUE" ∧ g.Legible ∧ read g.text = .ok g := by
  have hread : read " a#b &! !c\n&TRUE" = .ok ⟨[.positive "a#b", .negative "!c", .truth]⟩ := by cbv
  obtain ⟨hiff, hback⟩ := reads_back_iff_legible ⟨[.positive "a#b", .negative "!c", .truth]⟩
    " a#b &! !c\n&TRUE"
  obtain ⟨hne, -, hagain⟩ := hback hread
  exact ⟨_, hread, rfl, by decide, (hiff hne).1 hagain, hagain⟩

end Guard
end LinearTime
