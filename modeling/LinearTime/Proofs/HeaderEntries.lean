/-
  LinearTime.Proofs.HeaderEntries — what the entries of a header say.

  The entries of a header stand in any order.  An entry takes the place of all
  earlier ones with its key, also if it has no value, and is then looked at no
  further than for its value:

      nsets=7,type=gba,nsets=2,ac=edges    two sets
      type=ba,ac=nodes,nsets=2             no header
      type=ba,ac=nodes,nsets               one set, as if `nsets` were absent

  So each key stands for the value of its last entry, and a header is read
  exactly if these values describe an acceptance condition.  The number of sets
  is then given for a generalized graph only, unless the last `nsets` is bare.

  Main results:
    * `HeaderValues.foldlM_put_eq_ok_iff` — a run of entries.
    * `readHeader_eq_ok_iff` — the headers that are read.
    * `set_count_fits_iff` — numbers of sets that do not fit.
-/

import LinearTime.Proofs.WrittenLines

namespace LinearTime

open Text LineReader

/-! ## §1. The last entry for a key -/

namespace Entry

variable {key : String} {e : Entry} {es : List Entry}

/-- The last entry for a key. -/
def last? (key : String) (es : List Entry) : Option Entry := es.reverse.find? (·.key = key)

/-- The value of the last entry for a key; a bare entry has none. -/
def given (key : String) (es : List Entry) : Option String := (last? key es).bind value

/-- An entry behind the others is the last one for its key. -/
theorem last?_concat (key : String) (es : List Entry) (e : Entry) :
    last? key (es ++ [e]) = if e.key = key then some e else last? key es := by
  unfold last?
  rw [List.reverse_append, List.reverse_singleton, List.singleton_append, List.find?_cons]
  by_cases h : e.key = key <;> simp [h]

/-- Its value is what is given for the key, even if it has none. -/
theorem given_concat (key : String) (es : List Entry) (e : Entry) :
    given key (es ++ [e]) = if e.key = key then e.value else given key es := by
  unfold given
  rw [last?_concat]
  split <;> rfl

/-- There is no last entry for a key just when there is none. -/
theorem last?_eq_none_iff : last? key es = none ↔ ∀ e ∈ es, e.key ≠ key := by
  simp [last?]

end Entry

/-! ## §2. Runs of entries -/

namespace HeaderValues

variable {e : Entry} {es : List Entry} {h h' : HeaderValues}

/-- The keys of a header. -/
def keys : List String := ["type", "ac", "nsets"]

/-- The values that some entries leave. -/
def of (es : List Entry) : HeaderValues :=
  { condition := Entry.given "type" es
    carrier := Entry.given "ac" es
    count := Entry.given "nsets" es }

/-- An entry for a key of a header takes the place of all earlier ones. -/
theorem put_of (he : e.key ∈ keys) : (of es).put e = .ok (of (es ++ [e])) := by
  obtain ⟨key, value⟩ := e
  have hkey : key = "type" ∨ key = "ac" ∨ key = "nsets" := by simpa [keys] using he
  unfold of
  simp only [Entry.given_concat]
  rcases hkey with rfl | rfl | rfl <;> rfl

/-- Entries that are accepted have one of the known keys. -/
theorem put_eq_ok (hput : h.put e = .ok h') : e.key ∈ keys := by
  unfold put at hput
  split at hput
  next hkey => simp [keys, hkey]
  next hkey => simp [keys, hkey]
  next hkey => simp [keys, hkey]
  next => cases hput

/-- Entries are taken over if all of them are for keys of a header, and then each
    key has the value of its last entry. -/
theorem foldlM_put_eq_ok_iff :
    es.foldlM put {} = .ok h ↔ (∀ e ∈ es, e.key ∈ keys) ∧ h = of es := by
  -- From the end: the last entry decides about its key.
  induction es using List.reverseRecOn generalizing h with
  | nil =>
    constructor
    · intro hfold
      exact ⟨fun _ he => absurd he List.not_mem_nil, (Except.ok.inj hfold).symm⟩
    · rintro ⟨-, rfl⟩
      rfl
  | append_singleton es e ih =>
    rw [List.foldlM_append]
    constructor
    · intro hfold
      obtain ⟨h', hes, hlast⟩ := bind_eq_ok hfold
      obtain ⟨hkeys, rfl⟩ := ih.1 hes
      have hput : (of es).put e = .ok h := by simpa using hlast
      have hkey := put_eq_ok hput
      rw [put_of hkey] at hput
      refine ⟨?_, (Except.ok.inj hput).symm⟩
      intro e' he'
      rcases List.mem_append.1 he' with he' | he'
      · exact hkeys e' he'
      · rwa [List.mem_singleton.1 he']
    · rintro ⟨hkeys, rfl⟩
      have hes := ih.2 ⟨fun e' he' => hkeys e' (List.mem_append_left _ he'), rfl⟩
      rw [hes, ok_bind, List.foldlM_cons, put_of (hkeys e (by simp))]
      rfl

end HeaderValues

/-! ## §3. Described conditions -/

namespace Condition

variable {name count : Option String} {c : Condition}

/-- The condition of a name and a number of sets, as far as they are given. -/
inductive Named : Option String → Option String → Condition → Prop
  | buchi : Named (some "ba") none .buchi
  | generalized {text : String} {sets : Nat} (h : readNumber text.toList = .ok sets)
      (hpos : 0 < sets) : Named (some "gba") (some text) (.generalized sets)

/-- A condition is read just from its name with the number of sets it needs. -/
theorem read_eq_ok_iff : read name count = .ok c ↔ Named name count c := by
  constructor
  · intro h
    unfold read at h
    split at h
    next =>
      obtain rfl := Except.ok.inj h
      exact .buchi
    next => cases h
    next => cases h
    next text _ =>
      split at h
      next sets hnumber =>
        obtain rfl := Except.ok.inj h
        exact .generalized hnumber (Nat.succ_pos sets)
      next => cases h
    next => cases h
  -- the number was read, and it is not zero
  · rintro (_ | ⟨hnumber, hpos⟩)
    next => rfl
    next text sets =>
      obtain ⟨n, rfl⟩ : ∃ n, sets = n + 1 := ⟨sets - 1, by omega⟩
      simp only [read]
      rw [hnumber]

end Condition

theorem Carrier.read_eq_ok_iff {name : String} {c : Carrier} :
    Carrier.read name = .ok c ↔ name = c.text := by
  constructor
  · intro h
    unfold read at h
    split at h
    next hname =>
      obtain rfl := Except.ok.inj h
      exact hname
    next =>
      split at h
      next hname =>
        obtain rfl := Except.ok.inj h
        exact hname
      next => cases h
  · rintro rfl
    cases c <;> rfl

namespace Acceptance

variable {a : Acceptance} {es : List Entry} {h : HeaderValues}

/-- Entries describe an acceptance condition: they are for keys of a header, and
    the last ones for the keys say what it is. -/
structure Described (es : List Entry) (a : Acceptance) : Prop where
  keys : ∀ e ∈ es, e.key ∈ HeaderValues.keys
  condition : Condition.Named (Entry.given "type" es) (Entry.given "nsets" es) a.condition
  carrier : (Entry.given "ac" es).getD "" = a.carrier.text

/-- A header gives an acceptance just when its condition and its carrier are named. -/
theorem acceptance_eq_ok_iff :
    h.acceptance = .ok a
      ↔ Condition.Named h.condition h.count a.condition ∧ h.carrier.getD "" = a.carrier.text := by
  unfold HeaderValues.acceptance
  constructor
  · intro hok
    obtain ⟨condition, hcondition, hok⟩ := bind_eq_ok hok
    obtain ⟨carrier, hcarrier, hok⟩ := bind_eq_ok hok
    obtain rfl := Except.ok.inj hok
    exact ⟨Condition.read_eq_ok_iff.1 hcondition, Carrier.read_eq_ok_iff.1 hcarrier⟩
  · rintro ⟨hcondition, hcarrier⟩
    rw [Condition.read_eq_ok_iff.2 hcondition, ok_bind, Carrier.read_eq_ok_iff.2 hcarrier]
    rfl

/-- The number of sets fits the type: a Büchi graph has no entry for it, and a
    generalized graph has one with a positive number. -/
def CountFits (es : List Entry) : Condition → Prop
  | .buchi => Entry.given "type" es = some "ba" ∧ ∀ e ∈ es, e.key ≠ "nsets"
  | .generalized n =>
    Entry.given "type" es = some "gba" ∧ 0 < n
      ∧ ∃ text, Entry.given "nsets" es = some text ∧ readNumber text.toList = .ok n

/-- The last entry for the number of sets has no value. -/
def BareCount (es : List Entry) : Prop := ∃ e, Entry.last? "nsets" es = some e ∧ e.value = none

/-- Without a number of sets there is either no entry for it or a bare one at
    last. -/
theorem bareCount_iff :
    BareCount es ↔ Entry.given "nsets" es = none ∧ ∃ e ∈ es, e.key = "nsets" := by
  unfold BareCount Entry.given
  cases hlast : Entry.last? "nsets" es with
  | none =>
    have habsent := Entry.last?_eq_none_iff.1 hlast
    simpa using habsent
  | some e =>
    have hpresent : ∃ e ∈ es, e.key = "nsets" := by
      by_contra hnone
      rw [Entry.last?_eq_none_iff.2 fun e he hkey => hnone ⟨e, he, hkey⟩] at hlast
      cases hlast
    simpa using fun _ => hpresent

/-- Of headers that are accepted, those with a bare count alone have one that does not fit. -/
theorem Described.countFits_iff (h : Described es a) :
    CountFits es a.condition ↔ ¬ BareCount es := by
  rw [bareCount_iff]
  obtain ⟨-, hcondition, -⟩ := h
  generalize htype : Entry.given "type" es = type at hcondition
  generalize hcount : Entry.given "nsets" es = count at hcondition
  generalize a.condition = c at hcondition
  cases hcondition with
  | buchi => simp [CountFits, htype]
  | generalized hnumber hpos => simp [CountFits, htype, hcount, hnumber, hpos]

/-- Only a Büchi graph gets by without a number of sets. -/
theorem Described.buchi_of_bareCount (h : Described es a) (hbare : BareCount es) :
    a.condition = .buchi := by
  have hcondition := h.condition
  rw [(bareCount_iff.1 hbare).1] at hcondition
  generalize Entry.given "type" es = type at hcondition
  generalize a.condition = c at hcondition
  cases hcondition
  rfl

end Acceptance

/-! ## §4. Header lines -/

namespace Graph

open Acceptance

variable {lines rest : Lines} {a : Acceptance}

/-- A line is read as a header exactly if its entries describe an acceptance
    condition, and then as that condition. -/
theorem readHeader_eq_ok_iff :
    readHeader lines = .ok (a, rest)
      ↔ ∃ line content es, next lines = .ok ((line, content), rest)
          ∧ Entry.readAll content = .ok es ∧ Described es a := by
  unfold readHeader
  rw [bind_eq_ok_iff]
  simp only [onLine_bind_eq_ok_iff]
  -- The line, its entries and what the last of each key say.
  constructor
  · rintro ⟨⟨line, content⟩, lines', hnext, es, hes, values, hvalues, hlast⟩
    obtain ⟨hkeys, rfl⟩ := HeaderValues.foldlM_put_eq_ok_iff.1 hvalues
    cases hacceptance : (HeaderValues.of es).acceptance with
    | error fault =>
      rw [hacceptance] at hlast
      cases hlast
    | ok a' =>
      rw [hacceptance] at hlast
      obtain ⟨rfl, rfl⟩ := Prod.mk.inj (Except.ok.inj hlast)
      obtain ⟨hcondition, hcarrier⟩ := acceptance_eq_ok_iff.1 hacceptance
      exact ⟨line, content, es, hnext, hes, hkeys, hcondition, hcarrier⟩
  · rintro ⟨line, content, es, hnext, hes, hkeys, hcondition, hcarrier⟩
    have hvalues := HeaderValues.foldlM_put_eq_ok_iff.2 ⟨hkeys, rfl⟩
    have hacceptance : (HeaderValues.of es).acceptance = .ok a :=
      acceptance_eq_ok_iff.2 ⟨hcondition, hcarrier⟩
    refine ⟨(line, content), rest, hnext, es, hes, .of es, hvalues, ?_⟩
    rw [hacceptance]
    rfl

/-- The entries of a header that is read describe its acceptance condition, and
    the number of sets fits the type unless the last `nsets` is bare. -/
theorem set_count_fits_iff (h : readHeader lines = .ok (a, rest)) :
    ∃ line content es, next lines = .ok ((line, content), rest)
      ∧ Entry.readAll content = .ok es ∧ Described es a
      ∧ (CountFits es a.condition ↔ ¬ BareCount es)
      ∧ (BareCount es → a.condition = .buchi) := by
  obtain ⟨line, content, es, hnext, hes, hdescribed⟩ := readHeader_eq_ok_iff.1 h
  refine ⟨line, content, es, hnext, hes, hdescribed, hdescribed.countFits_iff, ?_⟩
  exact hdescribed.buchi_of_bareCount

/-- A header that mentions the number of sets three times. -/
def countRepeated : Lines := ⟨[Lines.bytesOf "nsets,type=gba,nsets=7,ac=edges,nsets=2"], 1⟩

/-- The last number of sets counts, wherever it stands. -/
theorem set_count_fits_iff_repeated :
    readHeader countRepeated = .ok (⟨.generalized 2, .edges⟩, ⟨[], 2⟩)
      ∧ ∃ line content es, next countRepeated = .ok ((line, content), ⟨[], 2⟩)
          ∧ Entry.readAll content = .ok es ∧ Described es ⟨.generalized 2, .edges⟩
          ∧ (CountFits es (.generalized 2) ↔ ¬ BareCount es)
          ∧ (BareCount es → Condition.generalized 2 = .buchi) := by
  have hread : readHeader countRepeated = .ok (⟨.generalized 2, .edges⟩, ⟨[], 2⟩) := rfl
  exact ⟨hread, set_count_fits_iff hread⟩

/-- The header of a Büchi graph that mentions the number of sets. -/
def countBare : Lines := ⟨[Lines.bytesOf "type=ba,ac=nodes,nsets"], 1⟩

/-- A bare `nsets` is let through for a Büchi graph, which has no use for it. -/
theorem set_count_unfit_bare :
    readHeader countBare = .ok (⟨.buchi, .nodes⟩, ⟨[], 2⟩)
      ∧ ∃ content es, next countBare = .ok ((2, content), ⟨[], 2⟩)
          ∧ Entry.readAll content = .ok es ∧ ¬ CountFits es .buchi := by
  refine ⟨rfl, "type=ba,ac=nodes,nsets".toList,
    [⟨"type", some "ba"⟩, ⟨"ac", some "nodes"⟩, ⟨"nsets", none⟩], rfl, rfl, ?_⟩
  rintro ⟨-, habsent⟩
  exact habsent ⟨"nsets", none⟩ (by simp) rfl

end Graph
end LinearTime
