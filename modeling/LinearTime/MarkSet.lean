/-
  LinearTime.MarkSet — sets of acceptance set indices.

  A transition, a node or an edge belongs to some of the acceptance sets
  `0 … n-1`.  A `MarkSet` lists their indices in ascending order; `covers n`
  asks for all of them.

  In memory a set has one bit for each number up to its largest index, so that a
  single large index may need more than there is.  `Memory` says which indices
  can be had.

  Core only.
-/

import LinearTime.OrderedSet

namespace LinearTime

/-- A finite set of natural numbers. -/
abbrev IndexSet := OrderedSet (fun n : Nat => n)

/-- The acceptance sets something belongs to, by index. -/
abbrev MarkSet := IndexSet

/-! ## §1. Numbers as members -/

namespace IndexSet

theorem mem_insert {x z : Nat} {s : IndexSet} : z ∈ s.insert x ↔ z = x ∨ z ∈ s :=
  OrderedSet.mem_insert fun _ _ h => h

theorem contains_iff {s : IndexSet} {x : Nat} : s.contains x = true ↔ x ∈ s := by
  rw [OrderedSet.contains_eq_true_iff]
  constructor
  · rintro ⟨y, hy, rfl⟩
    exact hy
  · intro h
    exact ⟨x, h, rfl⟩

theorem mem_foldl_insert {z : Nat} (xs : List Nat) (s : IndexSet) :
    z ∈ xs.foldl (fun s x => s.insert x) s ↔ z ∈ s ∨ z ∈ xs := by
  induction xs generalizing s with
  | nil => simp
  | cons x xs ih =>
    rw [List.foldl_cons, ih, mem_insert, List.mem_cons]
    constructor
    · rintro ((rfl | h) | h)
      · exact .inr (.inl rfl)
      · exact .inl h
      · exact .inr (.inr h)
    · rintro (h | rfl | h)
      · exact .inl (.inr h)
      · exact .inl (.inl rfl)
      · exact .inr h

theorem mem_ofList {z : Nat} {xs : List Nat} : z ∈ (OrderedSet.ofList xs : IndexSet) ↔ z ∈ xs := by
  show z ∈ xs.foldl (fun s x => s.insert x) (OrderedSet.empty : IndexSet) ↔ z ∈ xs
  rw [mem_foldl_insert]
  simp [OrderedSet.not_mem_empty]

/-- An index is in a union if it is in either set. -/
theorem mem_union {z : Nat} {s t : IndexSet} : z ∈ s.union t ↔ z ∈ s ∨ z ∈ t :=
  mem_foldl_insert t.toList s

end IndexSet

namespace MarkSet

/-! ## §2. Sets of marks -/

/-- The indices below `sets` that pass a test. -/
def below (sets : Nat) (p : Nat → Bool) : MarkSet :=
  ⟨(List.range sets).filter p, (List.pairwise_lt_range).filter p⟩

/-- All indices below `sets`. -/
def full (sets : Nat) : MarkSet := below sets (fun _ => true)

/-- The indices below `sets` that are not in `m`. -/
def complement (m : MarkSet) (sets : Nat) : MarkSet :=
  below sets (fun i => !m.contains i)

/-- The first index from `i` on that an ascending listing starting there
    leaves out. -/
def gapFrom (i : Nat) : List Nat → Nat
  | [] => i
  | j :: js => if j = i then gapFrom (i + 1) js else i

/-- Whether every index below `sets` is in `m`, that is, whether the first
    index left out is not below `sets`. -/
def covers (m : MarkSet) (sets : Nat) : Bool := sets ≤ gapFrom 0 m.toList

/-- The indices that are in at least one of the sets. -/
def unionAll (ms : List MarkSet) : MarkSet := ms.foldl OrderedSet.union .empty

/-- The indices below a bound that satisfy a test. -/
theorem mem_below {sets i : Nat} {p : Nat → Bool} : i ∈ below sets p ↔ i < sets ∧ p i := by
  show i ∈ (List.range sets).filter p ↔ _
  rw [List.mem_filter, List.mem_range]

/-- The complement has the indices below the bound that are not in the set. -/
theorem mem_complement {m : MarkSet} {sets i : Nat} : i ∈ m.complement sets ↔ i < sets ∧ i ∉ m := by
  unfold complement
  rw [mem_below, ← IndexSet.contains_iff]
  simp

theorem le_gapFrom (js : List Nat) (i : Nat) : i ≤ gapFrom i js := by
  induction js generalizing i with
  | nil => exact Nat.le_refl i
  | cons j js ih =>
    unfold gapFrom
    split
    · exact Nat.le_trans (Nat.le_succ i) (ih (i + 1))
    · exact Nat.le_refl i

/-- In an ascending listing from `i` on, everything below the gap is there and
    the gap is not. -/
theorem le_gapFrom_iff {sets : Nat} (js : List Nat) (i : Nat) (asc : js.Pairwise (· < ·))
    (low : ∀ j ∈ js, i ≤ j) (h : i ≤ sets) :
    sets ≤ gapFrom i js ↔ ∀ k, i ≤ k → k < sets → k ∈ js := by
  induction js generalizing i with
  | nil =>
    show sets ≤ i ↔ _
    constructor
    · intro hle k hik hk
      omega
    · intro hall
      by_cases hlt : i < sets
      · exact absurd (hall i (Nat.le_refl i) hlt) List.not_mem_nil
      · omega
  | cons j js ih =>
    obtain ⟨hj, hjs⟩ := List.pairwise_cons.1 asc
    unfold gapFrom
    split
    next heq =>
      subst heq
      -- The listing starts with `i`: the gap is that of the rest, from `i + 1` on.
      by_cases hlt : j < sets
      · rw [ih (j + 1) hjs (fun k hk => hj k hk) hlt]
        constructor
        · intro hall k hjk hk
          by_cases hkj : k = j
          · exact hkj ▸ List.mem_cons_self
          · exact List.mem_cons_of_mem _ (hall k (by omega) hk)
        · intro hall k hjk hk
          rcases List.mem_cons.1 (hall k (by omega) hk) with rfl | hmem
          · omega
          · exact hmem
      · have hle := le_gapFrom js (j + 1)
        constructor
        · intro _ k hjk hk
          omega
        · intro _
          omega
    next hne =>
      -- The listing starts later, so `i` itself is the gap.
      have hij : i < j := Nat.lt_of_le_of_ne (low j List.mem_cons_self) (Ne.symm hne)
      constructor
      · intro hle k hik hk
        omega
      · intro hall
        by_cases hlt : i < sets
        · rcases List.mem_cons.1 (hall i (Nat.le_refl i) hlt) with rfl | hmem
          · exact absurd rfl hne
          · have := hj i hmem
            omega
        · omega

/-- A set covers `sets` acceptance sets if it has all their indices. -/
theorem covers_iff {m : MarkSet} {sets : Nat} : m.covers sets = true ↔ ∀ i < sets, i ∈ m := by
  unfold covers
  rw [decide_eq_true_iff, le_gapFrom_iff m.toList 0 m.ascending (fun _ _ => Nat.zero_le _)
    (Nat.zero_le sets)]
  constructor
  · intro hall i hi
    exact hall i (Nat.zero_le i) hi
  · intro hall i _ hi
    exact hall i hi

/-- Lexicographic order on the ascending listings. -/
def order (m n : MarkSet) : Ordering := listOrder m.toList n.toList
where
  listOrder : List Nat → List Nat → Ordering
    | [], [] => .eq
    | [], _ :: _ => .lt
    | _ :: _, [] => .gt
    | i :: is, j :: js => if i < j then .lt else if j < i then .gt else listOrder is js

/-- The indices in braces, separated by a comma and a blank. -/
def text (m : MarkSet) : String :=
  "\x7b" ++ ", ".intercalate (m.toList.map Nat.repr) ++ "\x7d"

/-! ## §3. Memory -/

/-- The bytes of a set up to this index: a bit for each number, in words of 32. -/
def bytesUpTo (index : Nat) : Nat := 4 * (index / 32 + 1)

end MarkSet

/-- What can be had of memory: whether a set of marks may go up to an index. -/
structure Memory where
  fits : Nat → Bool

namespace Memory

/-- As much memory as is asked for. -/
def unlimited : Memory := ⟨fun _ => true⟩

/-- No more than so many bytes for one set. -/
def ofBytes (bytes : Nat) : Memory := ⟨fun index => MarkSet.bytesUpTo index ≤ bytes⟩

/-- What a process can address at all: `2 ^ 47` bytes. -/
def addressable : Memory := ofBytes 140737488355328

end Memory
end LinearTime
