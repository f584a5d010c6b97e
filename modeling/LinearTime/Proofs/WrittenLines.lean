/-
  LinearTime.Proofs.WrittenLines — readers of lines that were written.

  A plain line says what it says: no comment, no blanks at its ends, no line feed
  and at least one character.  Plain lines that are written one after the other
  are found again as they are, whatever stands behind them; and what a reader
  takes from an input, written or not, are plain lines.

  Readers are sequences of smaller readers, so each of the two has a rule for
  sequences:

      Reads r written x  — `r` reads `written` and gives back `x`
      Yields r P         — what `r` gives back, if it does, has the property `P`

  Main results:
    * `divide_join` — dividing lines that were joined.
    * `Reads.next_bind`, `Reads.number_bind` — reading one written line.
    * `Yields.next` — a line that is read is plain.
-/

import LinearTime.Graph.Reader
import LinearTime.Proofs.Encoding
import LinearTime.Proofs.Pieces
import LinearTime.Proofs.Traversals

namespace LinearTime

open Text

/-! ## §1. Plain lines -/

/-- The line holds nothing but its content, and there is some. -/
structure Plain (cs : List Char) : Prop where
  ne_nil : cs ≠ []
  trimmed : Trimmed cs
  comment : '#' ∉ cs
  feed : '\n' ∉ cs

instance (cs : List Char) : Decidable (Plain cs) :=
  decidable_of_iff (cs ≠ [] ∧ Trimmed cs ∧ '#' ∉ cs ∧ '\n' ∉ cs)
    ⟨fun h => ⟨h.1, h.2.1, h.2.2.1, h.2.2.2⟩, fun h => ⟨h.1, h.2, h.3, h.4⟩⟩

/-- Plain texts joined by some other character are plain. -/
theorem Plain.append {cs ds : List Char} (hcs : Plain cs) (hds : Plain ds) {sep : Char}
    (hcomment : sep ≠ '#') (hfeed : sep ≠ '\n') : Plain (cs ++ [sep] ++ ds) where
  ne_nil := by simp
  trimmed := hcs.trimmed.append hds.trimmed hcs.ne_nil hds.ne_nil [sep]
  comment := by simp [hcs.comment, hds.comment, Ne.symm hcomment]
  feed := by simp [hcs.feed, hds.feed, Ne.symm hfeed]

/-- Plain pieces with a harmless sign between them are plain together. -/
theorem plain_intercalate {sep : Char} (hcomment : sep ≠ '#') (hfeed : sep ≠ '\n')
    {pieces : List (List Char)} (hne : pieces ≠ []) (h : ∀ piece ∈ pieces, Plain piece) :
    Plain ([sep].intercalate pieces) := by
  induction pieces with
  | nil => exact absurd rfl hne
  | cons piece pieces ih =>
    have hpiece := h piece List.mem_cons_self
    cases pieces with
    | nil => simpa using hpiece
    | cons next pieces =>
      rw [List.intercalate_cons_cons]
      exact hpiece.append (ih (List.cons_ne_nil _ _) fun p hp => h p (List.mem_cons_of_mem _ hp))
        hcomment hfeed

/-- A character that neither ends a line nor goes with its ends. -/
def isSolid (c : Char) : Bool := !isBlank c && c != '#'

theorem isSolid_iff {c : Char} : isSolid c = true ↔ isBlank c = false ∧ c ≠ '#' := by
  simp [isSolid]

/-- Text without blanks and comments is read as it is. -/
theorem plain_of_solid {cs : List Char} (hne : cs ≠ []) (h : cs.all isSolid = true) :
    Plain cs := by
  have h (c : Char) (hc : c ∈ cs) := isSolid_iff.1 (List.all_eq_true.1 h c hc)
  exact {
    ne_nil := hne
    trimmed := trimmed_of_forall fun c hc => (h c hc).1
    comment := fun hc => (h _ hc).2 rfl
    feed := fun hc => absurd (h _ hc).1 (by decide) }

theorem isSolid_of_isDigit {c : Char} (h : c.isDigit = true) : isSolid c = true := by
  rw [Char.isDigit_iff_toNat] at h
  have hzero : '0'.toNat = 48 := rfl
  have hnine : '9'.toNat = 57 := rfl
  apply isSolid_iff.2
  constructor
  · simp only [isBlank, Bool.or_eq_false_iff, Bool.and_eq_false_iff, decide_eq_false_iff_not,
      beq_eq_false_iff_ne]
    omega
  · rintro rfl
    exact absurd h (by decide)

theorem all_isSolid_repr (n : Nat) : n.repr.toList.all isSolid = true :=
  List.all_eq_true.2 fun _ hc => isSolid_of_isDigit (isDigit_of_mem_repr hc)

/-- A number written out is read as it is. -/
theorem plain_repr (n : Nat) : Plain n.repr.toList :=
  plain_of_solid (repr_ne_nil n) (all_isSolid_repr n)

namespace Lines

/-- A plain line has nothing to be taken off. -/
theorem content_eq_self {cs : List Char} (h : Plain cs) : content cs = cs := by
  have hwhole : cs.takeWhile (· != '#') = cs := by
    rw [List.takeWhile_eq_self_iff]
    intro c hc
    rw [bne_iff_ne]
    rintro rfl
    exact h.comment hc
  rw [content, hwhole]
  exact trim_eq_self h.trimmed

/-- What is left of a line is plain. -/
theorem plain_content {line : List Char} (hne : content line ≠ []) (hfeed : '\n' ∉ line) :
    Plain (content line) where
  ne_nil := hne
  trimmed := trimmed_trim _
  comment hc := by
    have hbefore := List.mem_takeWhile_imp (mem_of_mem_trim hc)
    exact absurd rfl (bne_iff_ne.1 hbefore)
  feed hc := hfeed ((List.takeWhile_sublist _).mem (mem_of_mem_trim hc))

/-! ## §2. Dividing into lines -/

/-- The bytes of a line. -/
def bytesOf (line : String) : List UInt8 := Utf8.encode line.toList

theorem feed_not_mem_encode {cs : List Char} (h : '\n' ∉ cs) : (0x0A : UInt8) ∉ Utf8.encode cs :=
  fun hmem => h (Utf8.mem_encode_ascii (c := '\n') (by decide) hmem)

/-- The first line ends at the first line feed. -/
theorem divide_append {bytes : List UInt8} (h : 0x0A ∉ bytes) (rest : List UInt8) :
    divide (bytes ++ 0x0A :: rest) = bytes :: divide rest := by
  induction bytes with
  | nil => rfl
  | cons b bytes ih =>
    obtain ⟨hb, hbytes⟩ := List.ne_and_not_mem_of_not_mem_cons h
    show addToLines b (divide (bytes ++ 0x0A :: rest)) = _
    rw [ih hbytes]
    unfold addToLines
    rw [if_neg (by simpa using Ne.symm hb)]

/-- Lines that were ended and joined are found again. -/
theorem divide_join {lines : List String} (h : ∀ line ∈ lines, '\n' ∉ line.toList) :
    divide (Utf8.encode (String.join (lines.map (· ++ "\n"))).toList) = lines.map bytesOf := by
  rw [String.toList_join]
  induction lines with
  | nil => rfl
  | cons line lines ih =>
    have hline : (line ++ "\n").toList = line.toList ++ ['\n'] := String.toList_append
    have hfeed : Utf8.encode ['\n'] = [0x0A] := rfl
    rw [List.map_cons, List.map_cons, List.flatMap_cons, hline, Utf8.encode_append,
      Utf8.encode_append, hfeed, List.append_assoc, List.singleton_append,
      divide_append (feed_not_mem_encode (h line List.mem_cons_self)),
      ih fun line hline => h line (List.mem_cons_of_mem _ hline)]
    rfl

/-- No line has a line feed. -/
def Divided (lines : List (List UInt8)) : Prop := ∀ line ∈ lines, (0x0A : UInt8) ∉ line

/-- No line has a line feed in it. -/
theorem divided_divide (bytes : List UInt8) : Divided (divide bytes) := by
  induction bytes with
  | nil => exact fun _ h => absurd h List.not_mem_nil
  | cons b bytes ih =>
    have hcons : divide (b :: bytes) = addToLines b (divide bytes) := rfl
    rw [hcons]
    unfold addToLines
    -- a line feed starts a line, any other byte goes to the first one
    split
    next =>
      intro line hline
      rcases List.mem_cons.1 hline with rfl | hline
      · exact List.not_mem_nil
      · exact ih line hline
    next hb =>
      have hb : (0x0A : UInt8) ≠ b := fun heq => hb (by rw [← heq]; rfl)
      split
      next =>
        intro line hline
        obtain rfl := List.mem_singleton.1 hline
        simpa using hb
      next first lines heq =>
        rw [heq] at ih
        intro line hline
        rcases List.mem_cons.1 hline with rfl | hline
        · exact List.not_mem_cons_of_ne_of_not_mem hb (ih first List.mem_cons_self)
        · exact ih line (List.mem_cons_of_mem _ hline)

/-- A plain line that was written is the next one read. -/
theorem nextFrom_plain {line : String} (h : Plain line.toList) (rest : List (List UInt8))
    (count : Nat) :
    nextFrom (bytesOf line :: rest) count = .ok ((count + 1, line.toList), ⟨rest, count + 1⟩) := by
  unfold nextFrom bytesOf
  rw [Utf8.decode_encode]
  dsimp only
  rw [content_eq_self h]
  cases hcs : line.toList with
  | nil => exact absurd hcs h.ne_nil
  | cons c cs => rfl

/-- What is found is the content of some line that has one. -/
theorem nextFrom_ok {lines : List (List UInt8)} {count n : Nat} {cs : List Char} {after : Lines}
    (hdivided : Divided lines) (h : nextFrom lines count = .ok ((n, cs), after)) :
    Plain cs ∧ Divided after.rest := by
  induction lines generalizing count with
  | nil => cases h
  | cons line lines ih =>
    have hrest : Divided lines := fun l hl => hdivided l (List.mem_cons_of_mem _ hl)
    unfold nextFrom at h
    split at h
    next => cases h
    next ds hds =>
      split at h
      next => exact ih hrest h
      next c cs' hcontent =>
        obtain ⟨heq, rfl⟩ := Prod.mk.inj (Except.ok.inj h)
        obtain ⟨-, rfl⟩ := Prod.mk.inj heq
        -- Decoding makes line feeds of nothing else, and lines have none.
        have hfeed : '\n' ∉ ds := fun hmem =>
          hdivided line List.mem_cons_self
            (Utf8.mem_decode_ascii (c := '\n') (by decide) (by decide) hds hmem)
        refine ⟨?_, hrest⟩
        rw [← hcontent]
        exact plain_content (by rw [hcontent]; exact List.cons_ne_nil _ _) hfeed

end Lines

namespace LineReader

open Lines

variable {β γ : Type} {x : β} {y : γ} {role : NumberRole} {n line : Nat} {s : String}
  {written rest : List String} {r : LineReader β} {f : β → LineReader γ} {lines after : Lines}

/-! ## §3. Reading what was written -/

/-- One reader after the other, which starts where the first one stops. -/
theorem bind_eq_ok_iff :
    (r >>= f) lines = .ok (y, after)
      ↔ ∃ x between, r lines = .ok (x, between) ∧ f x between = .ok (y, after) := by
  show (r lines >>= fun p => f p.1 p.2) = _ ↔ _
  constructor
  · intro h
    obtain ⟨⟨x, between⟩, hr, hf⟩ := bind_eq_ok h
    exact ⟨x, between, hr, hf⟩
  · rintro ⟨x, between, hr, hf⟩
    rw [hr]
    exact hf

/-- Reading goes on after a line if the line has no fault. -/
theorem onLine_bind_eq_ok_iff {e : Except LineFault β} :
    (onLine line e >>= f) lines = .ok (y, after) ↔ ∃ x, e = .ok x ∧ f x lines = .ok (y, after) := by
  -- with a fault nothing follows
  cases e with
  | error fault =>
    constructor
    · intro h
      cases h
    · rintro ⟨x, hx, -⟩
      cases hx
  | ok x =>
    constructor
    · intro h
      exact ⟨x, rfl, h⟩
    · rintro ⟨x', hx, h⟩
      obtain rfl := Except.ok.inj hx
      exact h

/-- The reader takes the written lines, whatever follows them, and gives back `x`. -/
def Reads (r : LineReader β) (written : List String) (x : β) : Prop :=
  ∀ rest count,
    r ⟨written.map bytesOf ++ rest, count⟩ = .ok (x, ⟨rest, count + written.length⟩)

theorem Reads.pure (x : β) : Reads (Pure.pure x) [] x := fun _ _ => rfl

/-- One reader after the other, over what was written for both. -/
theorem Reads.bind (hr : Reads r written x) (hf : Reads (f x) rest y) :
    Reads (r >>= f) (written ++ rest) y := by
  intro more count
  show (r ⟨(written ++ rest).map bytesOf ++ more, count⟩ >>= fun p => f p.1 p.2) = _
  rw [List.map_append, List.append_assoc, hr]
  show f x _ = _
  rw [hf, List.length_append, Nat.add_assoc]

/-- The last reader of a sequence that takes something. -/
theorem Reads.bind_last (hr : Reads r written x) (hf : Reads (f x) [] y) :
    Reads (r >>= f) written y := by
  have hboth := hr.bind hf
  rwa [List.append_nil] at hboth

/-- Readers go on with the line that they find; its number tells faults apart only. -/
theorem Reads.next_bind {f : Nat × List Char → LineReader γ} (hs : Plain s.toList)
    (hf : ∀ line, Reads (f (line, s.toList)) rest y) : Reads (next >>= f) (s :: rest) y := by
  intro more count
  show (nextFrom (bytesOf s :: (rest.map bytesOf ++ more)) count >>= fun p => f p.1 p.2) = _
  rw [nextFrom_plain hs]
  show f _ _ = _
  rw [hf, List.length_cons]
  congr 3
  omega

/-- A line without a fault is read, and reading goes on. -/
theorem Reads.onLine_bind {e : Except LineFault β} (he : e = .ok x) (hf : Reads (f x) rest y) :
    Reads (onLine line e >>= f) rest y := by
  subst he
  exact Reads.bind (Reads.pure x) hf

/-- A number that was written is read, and reading goes on. -/
theorem Reads.number_bind {f : Nat × Nat → LineReader γ} (hn : n < numberBound)
    (hf : ∀ line, Reads (f (line, n)) rest y) :
    Reads (number role >>= f) (n.repr :: rest) y := by
  unfold number
  rw [bind_assoc]
  apply Reads.next_bind (plain_repr n)
  intro line
  dsimp only
  rw [readNumber_repr hn]
  exact Reads.bind (Reads.pure (line, n)) (hf line)

/-! ## §4. What readers give back -/

/-- What the reader gives back, if it does, has the property `P`. -/
def Yields (r : LineReader β) (P : β → Prop) : Prop :=
  ∀ lines after x, Divided lines.rest → r lines = .ok (x, after) → P x ∧ Divided after.rest

theorem Yields.pure {P : β → Prop} (h : P x) : Yields (Pure.pure x) P := by
  intro lines after x' hdivided hx
  obtain ⟨rfl, rfl⟩ := Prod.mk.inj (Except.ok.inj hx)
  exact ⟨h, hdivided⟩

theorem Yields.throw {P : β → Prop} (fault : ReadFault) :
    Yields (MonadExcept.throw fault : LineReader β) P := by
  intro lines after x hdivided hx
  cases hx

/-- One reader after the other. -/
theorem Yields.bind {P : β → Prop} {Q : γ → Prop} (hr : Yields r P)
    (hf : ∀ x, P x → Yields (f x) Q) : Yields (r >>= f) Q := by
  intro lines after y hdivided hy
  obtain ⟨x, between, hx, hy⟩ := bind_eq_ok_iff.1 hy
  obtain ⟨hP, hbetween⟩ := hr _ _ _ hdivided hx
  exact hf x hP _ _ _ hbetween hy

/-- The lines that are found are plain. -/
theorem Yields.next : Yields next fun p => Plain p.2 := by
  intro lines after p hdivided hp
  exact nextFrom_ok hdivided hp

theorem Yields.onLine (line : Nat) (e : Except LineFault β) : Yields (onLine line e) (e = .ok ·) := by
  cases e with
  | ok x => exact .pure rfl
  | error fault => exact .throw _

/-- Numbers that are read lie below the bound. -/
theorem Yields.number (role : NumberRole) : Yields (number role) fun p => p.2 < numberBound := by
  apply Yields.next.bind
  intro p _
  dsimp only
  split
  next n hn => exact .pure (readNumber_lt hn)
  next => exact .throw _

end LineReader
end LinearTime
