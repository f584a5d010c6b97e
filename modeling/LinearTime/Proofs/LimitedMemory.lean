/-
  LinearTime.Proofs.LimitedMemory — reading where memory is limited.

  A set of marks needs memory up to its largest index, so an input of a few bytes
  may ask for more than there is.  Reading then stops at that mark.  Beside a
  reader that never lacks memory, the outcomes are

      with limited memory     without limits
      a value                 the same value
      another fault           the same fault
      no memory for mark i    anything, but a value has mark i

  This goes from one entry to the entries of a line, and from a line to sequences
  of readers.  For the last case, what is read later has to keep what was read
  before.

  Main results:
    * `Limited.bind`, `Limits.bind` — sequences.
    * `Lists.marked`, `Readable.held` — the marks of a graph and those of its blocks.
    * `limited_readWithin` — reading a graph with and without limits.
    * `held_of_readWithin` — what is read has its marks in memory.
-/

import LinearTime.Proofs.WrittenGraphs

namespace LinearTime

open Text

/-! ## §1. Outcomes -/

section Outcomes

variable {ε β γ : Type} {missing? : ε → Option Nat} {memory : Memory}
  {marks : β → Nat → Prop} {marks' : γ → Nat → Prop}

/-- The outcome with limited memory, and the one without limits.  `missing?` tells the
    faults that are for lack of memory, and `marks` the marks of a value. -/
inductive Limited (missing? : ε → Option Nat) (memory : Memory) (marks : β → Nat → Prop) :
    Except ε β → Except ε β → Prop where
  | went (x : β) : Limited missing? memory marks (.ok x) (.ok x)
  | failed {fault : ε} (h : missing? fault = none) :
      Limited missing? memory marks (.error fault) (.error fault)
  | stopped {fault : ε} {i : Nat} {outcome : Except ε β} (hi : missing? fault = some i)
      (hfits : memory.fits i = false) (hmarks : ∀ x, outcome = .ok x → marks x i) :
      Limited missing? memory marks (.error fault) outcome

/-- One computation after the other.  The second one keeps the marks of what the first
    one gives it. -/
theorem Limited.bind {e e' : Except ε β} {f f' : β → Except ε γ}
    (h : Limited missing? memory marks e e')
    (hf : ∀ x, e' = .ok x → Limited missing? memory marks' (f x) (f' x))
    (hkept : ∀ x y i, e' = .ok x → marks x i → f' x = .ok y → marks' y i) :
    Limited missing? memory marks' (e >>= f) (e' >>= f') := by
  cases h with
  | went x => exact hf x rfl
  | failed hfault => exact .failed hfault
  | stopped hi hfits hmarks =>
    refine .stopped hi hfits fun y hy => ?_
    obtain ⟨x, hx, hy⟩ := bind_eq_ok hy
    exact hkept x y _ hx (hmarks x hx) hy

/-- Changing a value that keeps its marks changes nothing about how memory limits it. -/
theorem Limited.map {e e' : Except ε β} (h : Limited missing? memory marks e e') {f : β → γ}
    (hf : ∀ x i, marks x i → marks' (f x) i) :
    Limited missing? memory marks' (e.map f) (e'.map f) := by
  cases h with
  | went x => exact .went (f x)
  | failed hfault => exact .failed hfault
  | stopped hi hfits hmarks =>
    refine .stopped hi hfits fun y hy => ?_
    obtain ⟨x, hx, rfl⟩ := map_eq_ok hy
    exact hf x _ (hmarks x hx)

/-- No fault of the computation is for lack of memory. -/
def Frugal (missing? : ε → Option Nat) (e : Except ε β) : Prop :=
  ∀ fault, e = .error fault → missing? fault = none

theorem frugal_ok (x : β) : Frugal missing? (.ok x : Except ε β) := nofun

theorem frugal_error {fault : ε} (h : missing? fault = none) :
    Frugal missing? (.error fault : Except ε β) := by
  rintro _ ⟨⟩
  exact h

/-- Two computations after each other need memory for marks only if one of them does. -/
theorem Frugal.bind {e : Except ε β} {f : β → Except ε γ} (he : Frugal missing? e)
    (hf : ∀ x, Frugal missing? (f x)) : Frugal missing? (e >>= f) := by
  cases e with
  | ok x => exact hf x
  | error fault => exact frugal_error (he fault rfl)

/-- Neither does a computation for each element of a list, if none of them does. -/
theorem Frugal.mapM {f : β → Except ε γ} (hf : ∀ x, Frugal missing? (f x)) (xs : List β) :
    Frugal missing? (xs.mapM f) := by
  induction xs with
  | nil => exact frugal_ok []
  | cons x xs ih =>
    rw [List.mapM_cons]
    exact (hf x).bind fun y => ih.bind fun ys => frugal_ok (y :: ys)

/-- Nor does one that goes through a list with an accumulator. -/
theorem Frugal.foldlM {f : γ → β → Except ε γ} (hf : ∀ z x, Frugal missing? (f z x))
    (xs : List β) (z : γ) : Frugal missing? (xs.foldlM f z) := by
  induction xs generalizing z with
  | nil => exact frugal_ok z
  | cons x xs ih =>
    rw [List.foldlM_cons]
    exact (hf z x).bind ih

/-- Where memory plays no part, limits make no difference. -/
theorem Frugal.limited {e : Except ε β} (h : Frugal missing? e) :
    Limited missing? memory marks e e := by
  cases e with
  | ok x => exact .went x
  | error fault => exact .failed (h fault rfl)

end Outcomes

/-! ## §2. Attribute lines -/

namespace Entry

variable {e : Entry}

end Entry

namespace Attributes

variable {memory : Memory} {a : Acceptance} {on : Carrier} {x y : Attributes} {i : Nat}

end Attributes

/-! ## §3. Readers -/

namespace LineReader

open Lines

variable {β γ : Type} {memory : Memory} {marks : β → Nat → Prop} {marks' : γ → Nat → Prop}
  {r r' : LineReader β} {f f' : β → LineReader γ} {P : β → Prop} {line : Nat}

/-- What the reader does with limited memory, beside the one without limits. -/
def Limits (memory : Memory) (marks : β → Nat → Prop) (r r' : LineReader β) : Prop :=
  ∀ lines, Divided lines.rest →
    Limited ReadFault.missing? memory (fun p i => marks p.1 i) (r lines) (r' lines)

theorem Limits.pure (x : β) : Limits memory marks (Pure.pure x) (Pure.pure x) :=
  fun lines _ => .went (x, lines)

/-- One reader after the other. What the first one gives has its marks still in what the second
    one makes of it. -/
theorem Limits.bind (hr : Limits memory marks r r') (hP : Yields r' P)
    (hf : ∀ x, P x → Limits memory marks' (f x) (f' x))
    (hkept : ∀ x i, P x → marks x i → Yields (f' x) (marks' · i)) :
    Limits memory marks' (r >>= f) (r' >>= f') := by
  intro lines hdivided
  show Limited _ _ _ (r lines >>= fun p => f p.1 p.2) (r' lines >>= fun p => f' p.1 p.2)
  refine (hr lines hdivided).bind ?_ ?_
  · rintro ⟨x, between⟩ hx
    obtain ⟨hPx, hbetween⟩ := hP _ _ _ hdivided hx
    exact hf x hPx between hbetween
  · rintro ⟨x, between⟩ ⟨y, after⟩ i hx hi hy
    obtain ⟨hPx, hbetween⟩ := hP _ _ _ hdivided hx
    exact (hkept x i hPx hi _ _ _ hbetween hy).1

/-- No fault of the reader is for lack of memory. -/
def Spares (r : LineReader β) : Prop := ∀ lines, Frugal ReadFault.missing? (r lines)

theorem Spares.pure (x : β) : Spares (Pure.pure x) := fun lines => frugal_ok (x, lines)

theorem Spares.throw {fault : ReadFault} (h : fault.missing? = none) :
    Spares (MonadExcept.throw fault : LineReader β) := fun _ => frugal_error h

theorem Spares.bind (hr : Spares r) (hf : ∀ x, Spares (f x)) : Spares (r >>= f) :=
  fun lines => (hr lines).bind fun p => hf p.1 p.2

/-- Finding the next line with content needs no memory for marks. -/
theorem Spares.next : Spares next := by
  rintro ⟨rest, count⟩
  show Frugal _ (nextFrom rest count)
  induction rest generalizing count with
  | nil => exact frugal_error rfl
  | cons line rest ih =>
    unfold nextFrom
    split
    next => exact frugal_error rfl
    next =>
      split
      next => exact ih _
      next => exact frugal_ok _

theorem Spares.onLine {e : Except LineFault β} (h : Frugal LineFault.missing? e) :
    Spares (onLine line e) := by
  cases e with
  | ok x => exact .pure x
  | error fault => exact .throw (h fault rfl)

/-- Neither does reading a number. -/
theorem Spares.number (role : NumberRole) : Spares (number role) := by
  apply Spares.next.bind
  intro p
  dsimp only
  split
  next => exact .pure _
  next => exact .throw rfl

/-- A reader that needs no memory for marks reads as without limits. -/
theorem Spares.limits (hr : Spares r) : Limits memory marks r r := fun lines _ => (hr lines).limited

/-- The faults of a line become faults of the reader, and those for lack of memory stay such. -/
theorem Limits.onLine {e e' : Except LineFault β}
    (h : Limited LineFault.missing? memory marks e e') :
    Limits memory marks (onLine line e) (onLine line e') := by
  cases h with
  | went x => exact .pure x
  | failed hfault => exact Spares.limits (.throw hfault)
  | stopped hi hfits hmarks =>
    intro lines _
    refine .stopped hi hfits ?_
    -- a line that is read leads to a value with that mark, if to any
    rintro ⟨x, after⟩ hx
    cases e' with
    | ok y =>
      obtain ⟨rfl, -⟩ := Prod.mk.inj (Except.ok.inj hx)
      exact hmarks y rfl
    | error _ => cases hx

/-- A reader that has no marks to keep comes first. -/
theorem Spares.then (hr : Spares r) (hP : Yields r P)
    (hf : ∀ x, P x → Limits memory marks' (f x) (f' x)) :
    Limits memory marks' (r >>= f) (r >>= f') := by
  have hself : Limits memory (fun _ _ => False) r r := hr.limits
  exact hself.bind hP hf fun _ _ _ hfalse => hfalse.elim

end LineReader

/-! ## §4. Marks of graphs -/

namespace Graph

open LineReader

section Marks

variable {α : Type} {g g' : Graph α} {R C D : Nat → Prop} {i : Nat}

/-- Some node or edge has the mark. -/
def Marked (g : Graph α) (i : Nat) : Prop :=
  (∃ v n, g.node? v = some n ∧ i ∈ n.attributes.marks)
    ∨ ∃ j e, g.edge? j = some e ∧ i ∈ e.attributes.marks

/-- There is memory for all marks. -/
def Held (memory : Memory) (g : Graph α) : Prop := ∀ i, g.Marked i → memory.fits i = true

/-- What is left of a graph has no other marks. -/
theorem Shrunk.marked (h : g.Shrunk g' R C D) (hi : g'.Marked i) : g.Marked i := by
  rcases hi with ⟨v, n', hn', hi⟩ | ⟨j, e', he', hi⟩
  · obtain ⟨n, hn, hmarks⟩ := h.node_of hn'
    exact .inl ⟨v, n, hn, hmarks i hi⟩
  · obtain ⟨e, he, -, -, hmarks⟩ := h.edge_of he'
    exact .inr ⟨j, e, he, hmarks i hi⟩

end Marks

variable {memory : Memory} {a : Acceptance} {bs : List NodeBlock} {g : Graph String} {i : Nat}

/-- Some attributes of a list, or of the edges of another, have the mark. -/
def MarkedAmong (nodes : List Attributes) (edges : List EdgeBlock) (i : Nat) : Prop :=
  (∃ x ∈ nodes, i ∈ x.marks) ∨ ∃ e ∈ edges, i ∈ e.attributes.marks

/-- The marks of a graph are those of its nodes and edges as they were read. -/
theorem Lists.marked {nodes : List Attributes} {edges : List EdgeBlock}
    (h : Lists a nodes edges g) : g.Marked i ↔ MarkedAmong nodes edges i := by
  constructor
  · rintro (⟨v, n, hn, hi⟩ | ⟨j, e, he, hi⟩)
    · have hv := attributes?_of_node? hn
      rw [h.node] at hv
      exact .inl ⟨n.attributes, List.mem_of_getElem? hv, hi⟩
    · have hj := bareEdge?_of_edge? he
      rw [h.edge] at hj
      obtain ⟨b, hb, heq⟩ := Option.map_eq_some_iff.1 hj
      have hattributes : b.attributes = e.attributes := congrArg Edge.attributes heq
      exact .inr ⟨b, List.mem_of_getElem? hb, by rwa [hattributes]⟩
  · rintro (⟨x, hx, hi⟩ | ⟨b, hb, hi⟩)
    · obtain ⟨v, hv⟩ := List.mem_iff_getElem?.1 hx
      rw [← h.node] at hv
      obtain ⟨n, hn, rfl⟩ := node?_of_attributes? hv
      exact .inl ⟨v, n, hn, hi⟩
    · obtain ⟨j, hj⟩ := List.mem_iff_getElem?.1 hb
      have he : g.bareEdge? j = some b.edge := by
        rw [h.edge, hj]
        rfl
      obtain ⟨e, he, -, -, hattributes⟩ := edge?_of_bareEdge? he
      refine .inr ⟨j, e, he, ?_⟩
      rw [hattributes]
      exact hi

end Graph
end LinearTime
