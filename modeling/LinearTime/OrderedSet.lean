/-
  LinearTime.OrderedSet — finite sets listed by ascending key.

  Obligations are taken up in the order in which they were created, marks
  and states are printed in ascending order, and two sets are equal when
  their listings are.  One structure serves all of them: a list whose keys
  strictly ascend, with the fact carried in the type.

  Core only.
-/

namespace LinearTime

/-- A finite set of elements told apart by a key, listed by ascending key. -/
structure OrderedSet {β : Type} (key : β → Nat) where
  toList : List β
  ascending : toList.Pairwise (fun a b => key a < key b)

namespace OrderedSet

variable {β : Type} {key : β → Nat}

/-! ## §1. Placing an element in an ascending list -/

/-- Puts `x` in front of the first element with a larger key; an element with
    the same key stays as it is. -/
def place (key : β → Nat) (x : β) : List β → List β
  | [] => [x]
  | y :: ys =>
    if key x < key y then x :: y :: ys
    else if key x = key y then y :: ys
    else y :: place key x ys

theorem mem_of_mem_place {x z : β} {ys : List β} (h : z ∈ place key x ys) : z = x ∨ z ∈ ys := by
  induction ys with
  | nil => simpa [place] using h
  | cons y ys ih =>
    simp only [place] at h
    split at h
    · simpa using h
    · split at h
      · exact .inr h
      · rcases List.mem_cons.1 h with rfl | h
        · exact .inr List.mem_cons_self
        · exact (ih h).imp_right (List.mem_cons_of_mem _)

/-- Placing keeps the keys ascending. -/
theorem pairwise_place {x : β} {ys : List β} (h : ys.Pairwise (fun a b => key a < key b)) :
    (place key x ys).Pairwise (fun a b => key a < key b) := by
  induction ys with
  | nil => simp [place]
  | cons y ys ih =>
    obtain ⟨hy, hys⟩ := List.pairwise_cons.1 h
    simp only [place]
    split
    -- in front of all others, which are larger still
    next hlt =>
      refine List.pairwise_cons.2 ⟨fun z hz => ?_, h⟩
      rcases List.mem_cons.1 hz with rfl | hz
      · exact hlt
      · exact Nat.lt_trans hlt (hy z hz)
    next hlt =>
      split
      · exact h
      next hne =>
        refine List.pairwise_cons.2 ⟨fun z hz => ?_, ih hys⟩
        rcases mem_of_mem_place hz with rfl | hz
        · omega
        · exact hy z hz

/-! ## §2. Operations -/

/-- The set without elements. -/
def empty : OrderedSet key := ⟨[], .nil⟩

instance : Inhabited (OrderedSet key) := ⟨empty⟩

/-- Adds `x` unless an element with its key is there. -/
def insert (x : β) (s : OrderedSet key) : OrderedSet key :=
  ⟨place key x s.toList, pairwise_place s.ascending⟩

/-- Whether an element with the key of `x` is in the set. -/
def contains (s : OrderedSet key) (x : β) : Bool :=
  s.toList.any (fun y => key y == key x)

/-- Keeps the elements that pass the test. -/
def filter (p : β → Bool) (s : OrderedSet key) : OrderedSet key :=
  ⟨s.toList.filter p, s.ascending.filter p⟩

/-- Drops the element with the key of `x`, if there is one. -/
def erase (x : β) (s : OrderedSet key) : OrderedSet key :=
  s.filter (fun y => key y != key x)

/-- The set of the elements of a list; of two with one key the first counts. -/
def ofList (xs : List β) : OrderedSet key :=
  xs.foldl (fun s x => s.insert x) empty

/-- All elements of both sets. -/
def union (s t : OrderedSet key) : OrderedSet key :=
  t.toList.foldl (fun s x => s.insert x) s

/-- The number of elements. -/
def size (s : OrderedSet key) : Nat := s.toList.length

/-- Whether the set has no element. -/
def isEmpty (s : OrderedSet key) : Bool := s.toList.isEmpty

/-- Splits off the element with the smallest key. -/
def popLeast? (s : OrderedSet key) : Option (β × OrderedSet key) :=
  match s with
  | ⟨[], _⟩ => none
  | ⟨x :: xs, h⟩ => some (x, ⟨xs, (List.pairwise_cons.1 h).2⟩)

/-- Two sets are the same when their elements have the same keys. -/
def sameKeys (s t : OrderedSet key) : Bool :=
  s.toList.map key == t.toList.map key

instance : BEq (OrderedSet key) := ⟨sameKeys⟩

/-! ## §3. Members -/

instance : Membership β (OrderedSet key) := ⟨fun s x => x ∈ s.toList⟩

theorem mem_toList {x : β} {s : OrderedSet key} : x ∈ s.toList ↔ x ∈ s := Iff.rfl

theorem not_mem_empty (x : β) : x ∉ (empty : OrderedSet key) := List.not_mem_nil

/-- Placing an element adds it, unless another has its key. -/
theorem mem_place {x z : β} {ys : List β} (h : ∀ y ∈ ys, key y = key x → y = x) :
    z ∈ place key x ys ↔ z = x ∨ z ∈ ys := by
  induction ys with
  | nil => simp [place]
  | cons y ys ih =>
    have ih := ih fun w hw => h w (List.mem_cons_of_mem _ hw)
    simp only [place]
    split
    · simp
    next hlt =>
      split
      -- it is there already, under the same key
      next heq =>
        have hyx : y = x := h y List.mem_cons_self heq.symm
        rw [hyx]
        simp
      next hne =>
        rw [List.mem_cons, ih, List.mem_cons]
        constructor
        · rintro (rfl | rfl | hz)
          · exact .inr (.inl rfl)
          · exact .inl rfl
          · exact .inr (.inr hz)
        · rintro (rfl | rfl | hz)
          · exact .inr (.inl rfl)
          · exact .inl rfl
          · exact .inr (.inr hz)

/-- Adding an element whose key stands for it alone. -/
theorem mem_insert {x z : β} {s : OrderedSet key} (h : ∀ y ∈ s, key y = key x → y = x) :
    z ∈ s.insert x ↔ z = x ∨ z ∈ s := mem_place h

theorem mem_filter {p : β → Bool} {z : β} {s : OrderedSet key} :
    z ∈ s.filter p ↔ z ∈ s ∧ p z := List.mem_filter

/-- An element is found when some element of the set has its key. -/
theorem contains_eq_true_iff {s : OrderedSet key} {x : β} :
    s.contains x = true ↔ ∃ y ∈ s, key y = key x := by
  unfold contains
  rw [List.any_eq_true]
  constructor
  · rintro ⟨y, hy, heq⟩
    exact ⟨y, hy, eq_of_beq heq⟩
  · rintro ⟨y, hy, heq⟩
    exact ⟨y, hy, beq_iff_eq.2 heq⟩

end OrderedSet
end LinearTime
