/-
  LinearTime.Proofs.WrittenAttributes — attribute lines that read as they were
  written.

  An attribute line is a list of entries between `,`, each a key or a key with a
  value behind `=`.  Entries without blanks are found again if their keys have no
  `=` and none of them stands for the empty list.  The header, the marks and the
  label of a node or an edge are written as such entries:

      header   type=gba,ac=edges,nsets=3
      marks    acc0,acc2
      label    label=S%200

  A label may be any text, its escapes see to that.  A mark is found again if it
  is one of those that the header admits, on the carrier that the header names,
  and fits into memory; no other marks are ever read.

  Main results:
    * `Entry.readAll_lineOf` — any line of such entries.
    * `reads_header`, `yields_header` — headers.
    * `Attributes.read_line`, `Attributes.admitted_of_read` — marks and labels.
-/

import LinearTime.Proofs.GraphRuns
import LinearTime.Proofs.HeaderEntries
import LinearTime.Proofs.LabelEscapes

namespace LinearTime

open Text LineReader

/-! ## §1. Entries -/

/-- A character that an entry may have. -/
def isPart (c : Char) : Bool := isSolid c && c != ','

theorem isPart_iff {c : Char} : isPart c = true ↔ isSolid c = true ∧ c ≠ ',' := by
  simp [isPart]

/-- A part of an entry has no blanks to be trimmed. -/
theorem trim_of_isPart {cs : List Char} (h : cs.all isPart = true) : trim cs = cs := by
  apply trim_eq_self
  apply trimmed_of_forall
  intro c hc
  exact (isSolid_iff.1 (isPart_iff.1 (List.all_eq_true.1 h c hc)).1).1

/-- A number written out can be part of an entry. -/
theorem all_isPart_repr (n : Nat) : n.repr.toList.all isPart = true := by
  rw [List.all_eq_true]
  intro c hc
  apply isPart_iff.2
  constructor
  · exact isSolid_of_isDigit (isDigit_of_mem_repr hc)
  · rintro rfl
    exact absurd (isDigit_of_mem_repr hc) (by decide)

namespace Entry

variable {e : Entry} {es : List Entry}

/-- The written form. -/
def text (e : Entry) : String :=
  match e.value with
  | none => e.key
  | some value => e.key ++ "=" ++ value

/-- A key that is found again, with or without a value. -/
structure IsKey (key : String) : Prop where
  ne_nil : key.toList ≠ []
  parts : key.toList.all isPart = true
  whole : '=' ∉ key.toList
  dash : key ≠ "-"

/-- The entry is found again on a line. -/
structure Writable (e : Entry) : Prop where
  key : IsKey e.key
  value : ∀ v ∈ e.value, v.toList.all isPart = true

theorem IsKey.writable_none {key : String} (h : IsKey key) : Writable ⟨key, none⟩ :=
  ⟨h, fun v hv => by cases hv⟩

theorem IsKey.writable_some {key value : String} (h : IsKey key)
    (hvalue : value.toList.all isPart = true) : Writable ⟨key, some value⟩ :=
  ⟨h, fun v hv => by rwa [← Option.some.inj hv]⟩

theorem toList_text_none (key : String) : (text ⟨key, none⟩).toList = key.toList := rfl

/-- An entry with a value is written with an equals sign. -/
theorem toList_text_some (key value : String) :
    (text ⟨key, some value⟩).toList = key.toList ++ '=' :: value.toList := by
  show (key ++ "=" ++ value).toList = _
  rw [String.toList_append, String.toList_append, List.append_assoc]
  rfl

theorem Writable.text_ne_nil (h : e.Writable) : e.text.toList ≠ [] := by
  obtain ⟨key, value⟩ := e
  cases value with
  | none => exact h.key.ne_nil
  | some value =>
    rw [toList_text_some]
    exact List.append_ne_nil_of_left_ne_nil h.key.ne_nil _

/-- What is written of an entry can be part of a line. -/
theorem Writable.text_parts (h : e.Writable) : e.text.toList.all isPart = true := by
  obtain ⟨key, value⟩ := e
  cases value with
  | none => exact h.key.parts
  | some value =>
    rw [toList_text_some, List.all_append, List.all_cons, h.key.parts, h.value value rfl]
    rfl

/-- No entry is written as the dash that stands for no entries. -/
theorem Writable.text_dash (h : e.Writable) : e.text.toList ≠ ['-'] := by
  obtain ⟨key, value⟩ := e
  cases value with
  | none =>
    intro heq
    exact h.key.dash (String.toList_inj.1 heq)
  | some value =>
    rw [toList_text_some]
    intro heq
    have hmem : '=' ∈ ['-'] := by
      rw [← heq]
      simp
    exact absurd hmem (by decide)

/-- What is written of an entry is read as one line as it is. -/
theorem Writable.plain_text (h : e.Writable) : Plain e.text.toList := by
  apply plain_of_solid h.text_ne_nil
  rw [List.all_eq_true]
  intro c hc
  exact (isPart_iff.1 (List.all_eq_true.1 h.text_parts c hc)).1

/-- An entry that was written is read back. -/
theorem read_text (h : e.Writable) (line : List Char) : read line e.text.toList = .ok e := by
  unfold read
  rw [trim_of_isPart h.text_parts]
  split
  next hnil => exact absurd hnil h.text_ne_nil
  next =>
    obtain ⟨key, value⟩ := e
    have hkey : IsKey key := h.key
    cases value with
    | none =>
      rw [toList_text_none, splitFirst?_eq_none hkey.whole]
      dsimp only
      rw [String.ofList_toList]
    | some value =>
      rw [toList_text_some, splitFirst?_append hkey.whole]
      dsimp only
      rw [trim_of_isPart hkey.parts, trim_of_isPart (h.value value rfl), String.ofList_toList,
        String.ofList_toList]

/-- The line of some entries. -/
def lineOf : List Entry → String
  | [] => "-"
  | e :: es => ",".intercalate ((e :: es).map text)

/-- The entries of a line are written with commas between them. -/
theorem toList_lineOf (h : es ≠ []) :
    (lineOf es).toList = [','].intercalate (es.map fun e => e.text.toList) := by
  cases es with
  | nil => exact absurd rfl h
  | cons e es =>
    show (",".intercalate ((e :: es).map text)).toList = _
    rw [String.toList_intercalate, List.map_map]
    rfl

/-- A written line of entries is read as one line as it is. -/
theorem plain_lineOf (h : ∀ e ∈ es, e.Writable) : Plain (lineOf es).toList := by
  by_cases hne : es = []
  · rw [hne]
    exact plain_of_solid (by decide) (by decide)
  · rw [toList_lineOf hne]
    apply plain_intercalate (by decide) (by decide) (by simpa using hne)
    intro piece hpiece
    obtain ⟨e, he, rfl⟩ := List.mem_map.1 hpiece
    exact (h e he).plain_text

/-- Entries are found again. -/
theorem readAll_lineOf (h : ∀ e ∈ es, e.Writable) : readAll (lineOf es).toList = .ok es := by
  by_cases hne : es = []
  · rw [hne]
    rfl
  have hpieces : splitOn ',' (lineOf es).toList = es.map fun e => e.text.toList := by
    rw [toList_lineOf hne]
    apply splitOn_intercalate (by simpa using hne)
    intro piece hpiece
    obtain ⟨e, he, rfl⟩ := List.mem_map.1 hpiece
    intro hc
    exact (isPart_iff.1 (List.all_eq_true.1 (h e he).text_parts _ hc)).2 rfl
  -- a line that says `-` would have one piece, and no entry is written so
  have hdash : (lineOf es).toList ≠ ['-'] := by
    intro heq
    have hmem : ['-'] ∈ es.map fun e => e.text.toList := by
      rw [← hpieces, heq]
      decide
    obtain ⟨e, he, htext⟩ := List.mem_map.1 hmem
    exact (h e he).text_dash htext
  unfold readAll
  rw [if_neg hdash, hpieces, List.mapM_map]
  have heach := mapM_eq_ok (g := id) es fun e he => read_text (h e he) (lineOf es).toList
  rwa [List.map_id] at heach

end Entry

/-! ## §2. Headers -/

namespace Acceptance

variable {a : Acceptance}

/-- The entries of a header. -/
def entries (a : Acceptance) : List Entry :=
  match a.condition with
  | .buchi => [⟨"type", some "ba"⟩, ⟨"ac", some a.carrier.text⟩]
  | .generalized n => [⟨"type", some "gba"⟩, ⟨"ac", some a.carrier.text⟩, ⟨"nsets", some n.repr⟩]

/-- The acceptance is written as a line of entries. -/
theorem text_eq_lineOf (a : Acceptance) : a.text = Entry.lineOf a.entries := by
  obtain ⟨condition, carrier⟩ := a
  apply String.toList_inj.1
  cases condition with
  | buchi => cases carrier <;> rfl
  | generalized n =>
    refine Eq.trans ?_ (Entry.toList_lineOf (List.cons_ne_nil _ _)).symm
    show ("type=gba,ac=" ++ carrier.text ++ ",nsets=" ++ n.repr).toList
      = [','].intercalate [(Entry.text ⟨"type", some "gba"⟩).toList,
        (Entry.text ⟨"ac", some carrier.text⟩).toList, (Entry.text ⟨"nsets", some n.repr⟩).toList]
    rw [Entry.toList_text_some, Entry.toList_text_some, Entry.toList_text_some,
      String.toList_append, String.toList_append, String.toList_append]
    cases carrier <;> simp [Carrier.text, List.intercalate]

/-- All entries of the acceptance can be read back. -/
theorem writable_entries (a : Acceptance) : ∀ e ∈ a.entries, e.Writable := by
  have hcarrier : a.carrier.text.toList.all isPart = true := by cases a.carrier <;> decide
  have htype : Entry.IsKey "type" := ⟨by decide, by decide, by decide, by decide⟩
  have hac : Entry.IsKey "ac" := ⟨by decide, by decide, by decide, by decide⟩
  have hnsets : Entry.IsKey "nsets" := ⟨by decide, by decide, by decide, by decide⟩
  unfold entries
  split
  next =>
    intro e he
    simp only [List.mem_cons, List.not_mem_nil, or_false] at he
    rcases he with rfl | rfl
    · exact htype.writable_some (by decide)
    · exact hac.writable_some hcarrier
  next n _ =>
    intro e he
    simp only [List.mem_cons, List.not_mem_nil, or_false] at he
    rcases he with rfl | rfl | rfl
    · exact htype.writable_some (by decide)
    · exact hac.writable_some hcarrier
    · exact hnsets.writable_some (all_isPart_repr n)

/-- The entries of a header say which one it is. -/
theorem values_entries (hsets : 1 ≤ a.sets) (hbound : a.sets < numberBound) :
    ∃ values, a.entries.foldlM HeaderValues.put {} = .ok values
      ∧ values.acceptance = .ok a := by
  obtain ⟨condition, carrier⟩ := a
  cases condition with
  | buchi =>
    refine ⟨{ condition := some "ba", carrier := some carrier.text }, rfl, ?_⟩
    exact acceptance_eq_ok_iff.2 ⟨.buchi, rfl⟩
  | generalized n =>
    refine ⟨⟨some "gba", some carrier.text, some n.repr⟩, rfl, ?_⟩
    exact acceptance_eq_ok_iff.2 ⟨.generalized (readNumber_repr hbound) hsets, rfl⟩

/-- A header that is read admits one set at least, and not more than can be written. -/
theorem sets_of_values {values : HeaderValues} (h : values.acceptance = .ok a) :
    1 ≤ a.sets ∧ a.sets < numberBound := by
  obtain ⟨condition, carrier⟩ := a
  obtain ⟨type, on, count⟩ := values
  obtain ⟨hcondition, -⟩ := acceptance_eq_ok_iff.1 h
  cases hcondition with
  | buchi =>
    have hone : 1 < numberBound := by decide
    exact ⟨le_refl 1, hone⟩
  | generalized hnumber hpos => exact ⟨hpos, readNumber_lt hnumber⟩

end Acceptance

namespace Graph

/-- Reading a header that was written. -/
theorem reads_header {a : Acceptance} (hsets : 1 ≤ a.sets) (hbound : a.sets < numberBound) :
    Reads readHeader [a.text] a := by
  obtain ⟨values, hvalues, hacceptance⟩ := Acceptance.values_entries hsets hbound
  have hentries := a.writable_entries
  rw [Acceptance.text_eq_lineOf]
  apply Reads.next_bind (Entry.plain_lineOf hentries)
  intro line
  apply Reads.onLine_bind (Entry.readAll_lineOf hentries)
  apply Reads.onLine_bind hvalues
  rw [hacceptance]
  exact Reads.pure a

/-- What a header is read as. -/
theorem yields_header :
    Yields readHeader fun a => 1 ≤ a.sets ∧ a.sets < numberBound := by
  apply Yields.next.bind
  intro p _
  apply (Yields.onLine p.1 _).bind
  intro entries _
  apply (Yields.onLine p.1 _).bind
  intro values _
  split
  next a ha => exact .pure (Acceptance.sets_of_values ha)
  next => exact .throw _

end Graph

/-! ## §3. Marks -/

namespace Condition

variable {c : Condition} {i : Nat}

/-- The name of a mark among several: its index behind a fixed start. -/
theorem toList_markName (n i : Nat) :
    ((generalized n).markName i).toList = "acc".toList ++ i.repr.toList :=
  String.toList_append

/-- Names of marks are found again. -/
theorem readMark?_markName (hi : i < c.sets) (hbound : c.sets < numberBound) :
    c.readMark? (c.markName i) = some i := by
  cases c with
  | buchi =>
    have hone : i < 1 := hi
    obtain rfl : i = 0 := by omega
    rfl
  | generalized n =>
    have hi : i < n := hi
    have hbound : n < numberBound := hbound
    unfold readMark?
    rw [toList_markName, stripStart?_append]
    dsimp only
    rw [Option.bind_eq_bind, Option.bind_some, readNumber_repr (by omega)]
    exact if_pos hi

/-- No other marks are found. -/
theorem lt_of_readMark? {name : String} (h : c.readMark? name = some i) : i < c.sets := by
  cases c with
  | buchi =>
    unfold readMark? at h
    dsimp only at h
    split at h
    next =>
      obtain rfl := Option.some.inj h
      exact Nat.one_pos
    next => cases h
  | generalized n =>
    obtain ⟨digits, -, h⟩ := Option.bind_eq_some_iff.1 h
    split at h
    -- the number behind the name is checked against the number of sets
    next j _ =>
      split at h
      next hj =>
        obtain rfl := Option.some.inj h
        exact hj
      next => cases h
    next => cases h

/-- The name of a mark can be a key. -/
theorem isKey_markName (c : Condition) (i : Nat) : Entry.IsKey (c.markName i) := by
  cases c with
  | buchi =>
    show Entry.IsKey "accepting"
    exact ⟨by decide, by decide, by decide, by decide⟩
  | generalized n =>
    have hparts := all_isPart_repr i
    exact {
      ne_nil := by
        rw [toList_markName]
        exact List.cons_ne_nil _ _
      parts := by
        rw [toList_markName, List.all_append, hparts]
        rfl
      -- neither the name nor a digit is the separator
      whole := by
        rw [toList_markName]
        intro hmem
        rcases List.mem_append.1 hmem with hmem | hmem
        · exact absurd hmem (by decide)
        · exact absurd (isDigit_of_mem_repr hmem) (by decide)
      dash := by
        intro heq
        have hlist := congrArg String.toList heq
        rw [toList_markName] at hlist
        exact absurd (List.cons.inj hlist).1 (by decide) }

/-- No mark is named like the key of labels. -/
theorem markName_ne_label (c : Condition) (i : Nat) : c.markName i ≠ "label" := by
  cases c with
  | buchi =>
    show "accepting" ≠ "label"
    decide
  | generalized n =>
    intro heq
    have hlist := congrArg String.toList heq
    rw [toList_markName] at hlist
    exact absurd (List.cons.inj hlist).1 (by decide)

end Condition

/-- Marks are found under their names on their carrier only. -/
theorem Acceptance.place_of_key {a : Acceptance} {on : Carrier} {key : String} {i : Nat}
    (h : a.key key on = .ok (.mark i)) : on = a.carrier ∧ i < a.sets := by
  unfold Acceptance.key at h
  split at h
  next => cases h
  next =>
    split at h
    next hmark =>
      split at h
      next hon =>
        obtain rfl := AttributeKey.mark.inj (Except.ok.inj h)
        exact ⟨hon, Condition.lt_of_readMark? hmark⟩
      next => cases h
    next => cases h

/-! ## §4. Attribute lines -/

namespace Attributes

variable {memory : Memory} {a : Acceptance} {on : Carrier} {x : Attributes}

/-- All marks are such as the header admits, on the carrier that it names. -/
def Writable (a : Acceptance) (on : Carrier) (x : Attributes) : Prop :=
  ∀ i ∈ x.marks, on = a.carrier ∧ i < a.sets

instance (a : Acceptance) (on : Carrier) (x : Attributes) : Decidable (x.Writable a on) :=
  inferInstanceAs (Decidable (∀ i ∈ x.marks.toList, on = a.carrier ∧ i < a.sets))

/-- There is memory for all marks. -/
def Held (memory : Memory) (x : Attributes) : Prop := ∀ i ∈ x.marks, memory.fits i = true

theorem held_unlimited (x : Attributes) : x.Held .unlimited := fun _ _ => rfl

/-- The entries for the marks and the label. -/
def entries (c : Condition) (x : Attributes) : List Entry :=
  x.marks.toList.map (fun i => ⟨c.markName i, none⟩)
    ++ (x.label.map fun l => ⟨"label", some (String.ofList (Label.escape l.toList))⟩).toList

/-- An escaped label can be part of an entry. -/
theorem all_isPart_escape (label : List Char) : (Label.escape label).all isPart = true := by
  rw [List.all_eq_true]
  intro c hc
  obtain ⟨hcomma, -, hcomment, hblank, -⟩ := Label.harmless_of_mem_escape hc
  exact isPart_iff.2 ⟨isSolid_iff.2 ⟨hblank, hcomment⟩, hcomma⟩

/-- All entries of attributes can be read back, whatever the label is. -/
theorem writable_entries (c : Condition) (x : Attributes) : ∀ e ∈ x.entries c, e.Writable := by
  have hlabel : Entry.IsKey "label" := ⟨by decide, by decide, by decide, by decide⟩
  intro e he
  rcases List.mem_append.1 he with he | he
  · obtain ⟨i, -, rfl⟩ := List.mem_map.1 he
    exact (c.isKey_markName i).writable_none
  · obtain ⟨l, -, rfl⟩ := Option.map_eq_some_iff.1 (Option.mem_toList.1 he)
    apply hlabel.writable_some
    rw [String.toList_ofList]
    exact all_isPart_escape l.toList

theorem dedup_eq_self {names : List String} (h : names.Nodup) : dedup names = names := by
  induction names with
  | nil => rfl
  | cons name names ih =>
    obtain ⟨hname, hnames⟩ := List.nodup_cons.1 h
    unfold dedup
    rw [ih hnames]
    cases names with
    | nil => rfl
    | cons next names =>
      have hne : name ≠ next := by
        rintro rfl
        exact hname List.mem_cons_self
      exact if_neg hne

/-- Different marks have different names, so none is dropped. -/
theorem line_eq_lineOf (h : x.Writable a on) (hbound : a.sets < numberBound) :
    x.line a.condition = Entry.lineOf (x.entries a.condition) := by
  -- names tell the marks apart, so nothing is dropped
  have hnodup : (x.marks.toList.map a.condition.markName).Nodup := by
    have hmarks : x.marks.toList.Nodup := x.marks.ascending.imp fun hlt => Nat.ne_of_lt hlt
    apply hmarks.map_on
    intro i hi j hj heq
    have hi := Condition.readMark?_markName (h i hi).2 hbound
    have hj := Condition.readMark?_markName (h j hj).2 hbound
    rw [heq, hj] at hi
    exact (Option.some.inj hi).symm
  have htexts : (x.entries a.condition).map Entry.text = x.marks.toList.map a.condition.markName
      ++ (x.label.map fun l => "label=" ++ String.ofList (Label.escape l.toList)).toList := by
    rw [entries, List.map_append, List.map_map]
    cases x.label <;> rfl
  unfold line
  dsimp only
  rw [dedup_eq_self hnodup, ← htexts]
  cases x.entries a.condition <;> rfl

/-- Setting one mark after the other is setting all of them. -/
theorem foldl_insert (marks : List Nat) (x : Attributes) :
    marks.foldl (fun x i => { x with marks := x.marks.insert i }) x
      = { x with marks := marks.foldl (fun s i => s.insert i) x.marks } := by
  induction marks generalizing x with
  | nil => rfl
  | cons i marks ih => exact ih _

/-- The name of a mark, without a value, sets the mark. -/
theorem put_mark {i : Nat} (hon : on = a.carrier) (hi : i < a.sets) (hbound : a.sets < numberBound)
    (hfits : memory.fits i = true) (x : Attributes) :
    put memory a on x ⟨a.condition.markName i, none⟩
      = .ok { x with marks := x.marks.insert i } := by
  have hkey : a.key (a.condition.markName i) on = .ok (.mark i) := by
    unfold Acceptance.key
    rw [if_neg (a.condition.markName_ne_label i), Condition.readMark?_markName hi hbound]
    exact if_pos hon
  unfold put
  dsimp only
  rw [hkey]
  exact if_pos hfits

/-- The escaped label sets the label. -/
theorem put_label (x : Attributes) (l : String) :
    put memory a on x ⟨"label", some (String.ofList (Label.escape l.toList))⟩
      = .ok { x with label := some l } := by
  have hkey : a.key "label" on = .ok .label := if_pos rfl
  unfold put
  dsimp only
  rw [hkey, Option.getD_some, String.toList_ofList, Label.unescape_escape]
  dsimp only
  rw [String.ofList_toList]
  rfl

/-- The entries bring back marks and label. -/
theorem put_entries (h : x.Writable a on) (hbound : a.sets < numberBound)
    (hheld : x.Held memory) :
    (x.entries a.condition).foldlM (put memory a on) {} = .ok x := by
  obtain ⟨marks, label⟩ := x
  -- The marks are put one after the other, in ascending order, and the label last.
  have hmarks : (marks.toList.map fun i => Entry.mk (a.condition.markName i) none).foldlM
      (put memory a on) {} = .ok { marks } := by
    have hput (x : Attributes) : ∀ i ∈ marks.toList,
        put memory a on x ⟨a.condition.markName i, none⟩
          = .ok { x with marks := x.marks.insert i } :=
      fun i hi => put_mark (h i hi).1 (h i hi).2 hbound (hheld i hi) x
    rw [List.foldlM_map, foldlM_eq_ok hput, foldl_insert]
    have hmem (i : Nat) : i ∈ (OrderedSet.ofList marks.toList : MarkSet) ↔ i ∈ marks :=
      IndexSet.mem_ofList
    congr 2
    exact Graph.component_ext hmem
  unfold entries
  rw [List.foldlM_append, hmarks]
  cases label with
  | none => rfl
  | some l =>
    rw [ok_bind, Option.map_some, Option.toList_some, List.foldlM_cons, put_label]
    rfl

/-- A written line of attributes is read as one line as it is. -/
theorem plain_line (h : x.Writable a on) (hbound : a.sets < numberBound) :
    Plain (x.line a.condition).toList := by
  rw [line_eq_lineOf h hbound]
  exact Entry.plain_lineOf (x.writable_entries _)

/-- Reading marks and label that were written. -/
theorem read_line (h : x.Writable a on) (hbound : a.sets < numberBound) (hheld : x.Held memory) :
    read memory a on (x.line a.condition).toList = .ok x := by
  unfold read
  rw [line_eq_lineOf h hbound, Entry.readAll_lineOf (x.writable_entries _)]
  exact put_entries h hbound hheld

/-- What an entry does to the marks: it leaves them, or adds one that has its place there
    and for which there is memory. -/
theorem marks_of_put {e : Entry} {x' : Attributes} (hput : put memory a on x e = .ok x') :
    x'.marks = x.marks
      ∨ ∃ i, (on = a.carrier ∧ i < a.sets) ∧ memory.fits i = true
        ∧ x'.marks = x.marks.insert i := by
  -- A mark is inserted only under its own key, when set, and if there is memory.
  unfold put at hput
  split at hput
  next => cases hput
  next i hkey =>
    obtain ⟨flag, -, hput⟩ := bind_eq_ok hput
    split at hput
    next =>
      split at hput
      next hfits =>
        obtain rfl := Except.ok.inj hput
        exact .inr ⟨i, Acceptance.place_of_key hkey, hfits, rfl⟩
      next => cases hput
    next =>
      obtain rfl := Except.ok.inj hput
      exact .inl rfl
  next =>
    split at hput
    next => cases hput
    next =>
      obtain rfl := Except.ok.inj hput
      exact .inl rfl

/-- What an attribute line is read as. -/
theorem admitted_of_read {line : List Char} (h : read memory a on line = .ok x) :
    x.Writable a on ∧ x.Held memory := by
  obtain ⟨entries, -, h⟩ := bind_eq_ok h
  -- each entry keeps what holds of the attributes so far
  have hput (y z : Attributes) (e : Entry) (hy : y.Writable a on ∧ y.Held memory)
      (hput : put memory a on y e = .ok z) : z.Writable a on ∧ z.Held memory := by
    unfold Writable Held
    rcases marks_of_put hput with hmarks | ⟨i, hplace, hfits, hmarks⟩
    · rw [hmarks]
      exact hy
    · simp only [hmarks, IndexSet.mem_insert]
      exact ⟨fun k hk => hk.elim (· ▸ hplace) (hy.1 k), fun k hk => hk.elim (· ▸ hfits) (hy.2 k)⟩
  have hstart : Writable a on {} ∧ Held memory {} :=
    ⟨fun i hi => absurd hi (OrderedSet.not_mem_empty i),
      fun i hi => absurd hi (OrderedSet.not_mem_empty i)⟩
  exact foldlM_keeps (P := fun y => y.Writable a on ∧ y.Held memory)
    (fun y e z hy => hput y z e hy) hstart h

end Attributes
end LinearTime
