/-
  LinearTime.Proofs.Slots — atoms and literals in a ranking.

  Ranking an atom finds its slot or appends one, so slots are never changed and
  no slot holds an atom that equals an earlier one.  Where equality is an
  equivalence an atom then has one slot at most, and ranking never fails:

      equal atoms   ↔   the same slot.

  A literal over a ranked atom has a place in the order of all literals, a number
  made of its slot and its sign.  Comparing two of them compares their places.

  Main results:
    * `rank_cases` — what ranking an atom does.
    * `Later.slots`, `Reached.distinct` — what rankings keep, for any equality.
    * `Distinct.exists_rank`, `Later.slotsOf` — an atom gets its slot, and keeps it.
    * `compare_run`, `place_eq_iff` — the places of literals.
-/

import LinearTime.Guard.Ranking
import LinearTime.Proofs.Guards
import Mathlib

namespace LinearTime

/-! ## §1. The order of literals over numbers -/

namespace Literal

/-- The number of a literal in the order of literals. -/
def code : Literal Nat → Nat
  | truth => 0
  | positive i => 2 * i + 1
  | negative i => 2 * i + 2

/-- Codes tell literals apart. -/
theorem code_injective {l m : Literal Nat} (h : l.code = m.code) : l = m := by
  cases l <;> cases m <;> grind [code]

/-- Literals are compared like their codes: first the slots, then the polarity. -/
theorem compare_then_polarityOrder (i j : Nat) (p q : Bool) :
    (compare i j).then (polarityOrder p q)
      = compare (2 * i + 1 + p.toNat) (2 * j + 1 + q.toNat) := by
  have hp := p.toNat_lt
  have hq := q.toNat_lt
  rcases Nat.lt_trichotomy i j with h | rfl | h
  · rw [Nat.compare_eq_lt.2 h, Nat.compare_eq_lt.2 (by omega)]
    rfl
  · rw [Nat.compare_eq_eq.2 rfl]
    symm
    cases p <;> cases q <;> simp [polarityOrder, Nat.compare_eq_lt, Nat.compare_eq_gt]
  · rw [Nat.compare_eq_gt.2 h, Nat.compare_eq_gt.2 (by omega)]
    rfl

/-- The order of literals is the order of their numbers. -/
theorem orderBy_eq_compare (l m : Literal Nat) : l.orderBy compare m = compare l.code m.code := by
  cases l with
  | truth =>
    cases m with
    | truth => rfl
    | positive j => exact (Nat.compare_eq_lt.2 (Nat.succ_pos _)).symm
    | negative j => exact (Nat.compare_eq_lt.2 (Nat.succ_pos _)).symm
  | positive i =>
    cases m with
    | truth => exact (Nat.compare_eq_gt.2 (Nat.succ_pos _)).symm
    | positive j => exact compare_then_polarityOrder i j false false
    | negative j => exact compare_then_polarityOrder i j false true
  | negative i =>
    cases m with
    | truth => exact (Nat.compare_eq_gt.2 (Nat.succ_pos _)).symm
    | positive j => exact compare_then_polarityOrder i j true false
    | negative j => exact compare_then_polarityOrder i j true true

/-- Literals with equal atoms and the same sign are equal. -/
theorem beq_of_atoms {α : Type} [BEq α] {l m : Literal α} {a b : α} (hl : l.atom? = some a)
    (hm : m.atom? = some b) (hab : (a == b) = true) (hsign : l.isNegated = m.isNegated) :
    (l == m) = true := by
  cases l with
  | truth => cases hl
  | positive =>
    cases m with
    | truth => cases hm
    | positive =>
      cases hl
      cases hm
      exact hab
    | negative => cases hsign
  | negative =>
    cases m with
    | truth => cases hm
    | positive => cases hsign
    | negative =>
      cases hl
      cases hm
      exact hab

end Literal

namespace Ranking

/-- A literal does not come after another one if its code is not larger. -/
theorem notAfter_iff {l m : Literal Nat} : notAfter l m = true ↔ l.code ≤ m.code := by
  unfold notAfter
  rw [Literal.orderBy_eq_compare]
  exact Nat.isLE_compare

variable {α : Type} [BEq α] {r s t : Ranking α} {a b : α} {i j : Nat}

/-! ## §2. Ranking atoms, whatever equality they have -/

theorem placesFrom_eq_findIdxs (i : Nat) (a : α) (as : List α) :
    placesFrom i a as = as.findIdxs (· == a) i := by
  induction as generalizing i with
  | nil => rfl
  | cons b as ih =>
    rw [List.findIdxs_cons, ← ih]
    rfl

/-- The slots of an atom are the places at which an equal atom stands. -/
theorem slotsOf_eq_findIdxs (r : Ranking α) (a : α) :
    r.slotsOf a = r.slots.findIdxs (· == a) := placesFrom_eq_findIdxs 0 a r.slots

/-- A slot belongs to an atom if the atom in it is equal to that one. -/
theorem mem_slotsOf : i ∈ r.slotsOf a ↔ ∃ h : i < r.slots.length, (r.slots[i] == a) = true := by
  rw [slotsOf_eq_findIdxs]
  exact List.mem_findIdxs_iff_exists_getElem_pos

omit [BEq α] in
theorem run_bind {β γ : Type} {x : Ranked α β} {y : β} (h : x.run.run r = (.ok y, s))
    (f : β → Ranked α γ) : (x >>= f).run.run r = (f y).run.run s := by
  rw [ExceptT.run_bind, StateT.run_bind, h]
  rfl

omit [BEq α] in
theorem run_bind_error {β γ : Type} {x : Ranked α β} {fault : RankingFault α}
    (h : x.run.run r = (.error fault, s)) (f : β → Ranked α γ) :
    (x >>= f).run.run r = (.error fault, s) := by
  rw [ExceptT.run_bind, StateT.run_bind, h]
  rfl

/-- What ranking an atom does: a new slot, the only one, or a fault if there are several. -/
theorem rank_run (r : Ranking α) (a : α) :
    (rank a).run.run r = match r.slotsOf a with
      | [] => (.ok r.slots.length, ⟨r.slots ++ [a]⟩)
      | [i] => (.ok i, r)
      | _ :: _ :: _ => (.error (.ambiguous a), r) := by
  unfold rank
  show (match r.slotsOf a with
      | [] => _
      | [i] => _
      | _ :: _ :: _ => _ : Ranked α Nat).run.run r = _
  split <;> rfl

/-- Ranking finds the only slot of the atom or appends a slot with it. -/
theorem rank_cases (h : (rank a).run.run r = (.ok i, s)) :
    (r.slotsOf a = [i] ∧ s = r)
      ∨ (r.slotsOf a = [] ∧ i = r.slots.length ∧ s = ⟨r.slots ++ [a]⟩) := by
  rw [rank_run] at h
  split at h
  case h_1 hnone =>
    cases h
    exact .inr ⟨hnone, rfl, rfl⟩
  case h_2 j hone =>
    cases h
    exact .inl ⟨hone, rfl⟩
  case h_3 => cases h

/-- An atom with one slot is ranked by it, and the ranking stays as it is. -/
theorem rank_of_slotsOf (h : r.slotsOf a = [i]) : (rank a).run.run r = (.ok i, r) := by
  rw [rank_run, h]

/-- An atom that was ranked has the slot that was found, and no other one. -/
theorem slotsOf_of_rank [ReflBEq α] (h : (rank a).run.run r = (.ok i, s)) :
    s.slotsOf a = [i] := by
  obtain ⟨hone, rfl⟩ | ⟨hnone, rfl, rfl⟩ := rank_cases h
  · exact hone
  · rw [slotsOf_eq_findIdxs] at hnone ⊢
    rw [List.findIdxs_append, hnone, List.findIdxs_singleton, BEq.rfl, Nat.zero_add]
    rfl

/-- A ranking that is reached from `r` by ranking atoms, each with success. -/
inductive Later (r : Ranking α) : Ranking α → Prop
  | refl : Later r r
  | rank {s t : Ranking α} {a : α} {i : Nat} (before : Later r s)
      (step : (Ranking.rank a).run.run s = (.ok i, t)) : Later r t

/-- A ranking that is reached by ranking atoms, each with success. -/
def Reached (r : Ranking α) : Prop := Later {} r

/-- No slot holds an atom that equals an earlier one. -/
def Distinct (r : Ranking α) : Prop := r.slots.Pairwise fun a b => (a == b) = false

theorem Later.trans (h : Later r s) (h' : Later s t) : Later r t := by
  induction h' with
  | refl => exact h
  | rank _ step ih => exact .rank ih step

/-- Slots are only appended. -/
theorem Later.slots (h : Later r s) : ∃ more, s.slots = r.slots ++ more := by
  induction h with
  | refl => exact ⟨[], (List.append_nil _).symm⟩
  | rank _ step ih =>
    obtain ⟨-, rfl⟩ | ⟨-, -, rfl⟩ := rank_cases step
    · exact ih
    · obtain ⟨more, hmore⟩ := ih
      exact ⟨more ++ [_], by rw [hmore, List.append_assoc]⟩

/-- The slots of an atom are kept, and later ones come after them. -/
theorem Later.exists_slotsOf (h : Later r s) (a : α) : ∃ more, s.slotsOf a = r.slotsOf a ++ more := by
  obtain ⟨more, hmore⟩ := h.slots
  rw [slotsOf_eq_findIdxs, slotsOf_eq_findIdxs, hmore, List.findIdxs_append]
  exact ⟨_, rfl⟩

/-- Ranking an atom never fills a second slot with an equal one. -/
theorem distinct_of_rank (hr : r.Distinct) (h : (rank a).run.run r = (.ok i, s)) :
    s.Distinct := by
  obtain ⟨-, rfl⟩ | ⟨hnone, -, rfl⟩ := rank_cases h
  · exact hr
  · rw [slotsOf_eq_findIdxs, List.findIdxs_eq_nil_iff] at hnone
    apply List.pairwise_append.2 ⟨hr, List.pairwise_singleton _ _, ?_⟩
    intro b hb c hc
    rw [List.mem_singleton.1 hc]
    exact hnone b hb

/-- Whatever is ranked, no two slots hold equal atoms. -/
theorem Later.distinct (h : Later r s) (hr : r.Distinct) : s.Distinct := by
  induction h with
  | refl => exact hr
  | rank _ step ih => exact distinct_of_rank ih step

/-- In every ranking that comes about, no two slots hold equal atoms. -/
theorem Reached.distinct (h : r.Reached) : r.Distinct := Later.distinct h List.Pairwise.nil

/-! ## §3. Comparing literals over ranked atoms -/

/-- Whether the atom of the literal has just one slot, if there is an atom. -/
def Ranks (r : Ranking α) (l : Literal α) : Prop := (r.slotted? l).isSome = true

/-- The place of a literal in the order of literals. -/
def place (r : Ranking α) (l : Literal α) : Nat := ((r.slotted? l).map Literal.code).getD 0

/-- The place of a literal whose atom has a slot is the code of that slot. -/
theorem place_eq {l : Literal α} {k : Literal Nat} (h : r.slotted? l = some k) :
    r.place l = k.code := by
  unfold place
  rw [h]
  rfl

/-- What stands for a literal has its sign, and the slot of its atom. -/
theorem slotted?_iff {l : Literal α} {k : Literal Nat} :
    r.slotted? l = some k ↔ (l = .truth ∧ k = .truth) ∨ ∃ a i, r.slotsOf a = [i] ∧
      l.atom? = some a ∧ k.atom? = some i ∧ l.isNegated = k.isNegated := by
  constructor
  · intro h
    cases l with
    | truth => exact .inl ⟨rfl, (Option.some.inj h).symm⟩
    | positive a | negative a =>
      dsimp only [slotted?] at h
      split at h
      case h_1 i hone =>
        cases h
        exact .inr ⟨a, i, hone, rfl, rfl, rfl⟩
      case h_2 => cases h
  -- with one slot for its atom a literal is ranked
  · rintro (⟨rfl, rfl⟩ | ⟨a, i, hone, hl, hk, hsign⟩)
    · rfl
    · cases l <;> cases k <;> simp_all [slotted?, Literal.atom?, Literal.isNegated]

/-- A ranking in which every atom of a literal has one slot ranks the literal. -/
theorem ranks_of_slotsOf {l : Literal α} (h : ∀ a, l.atom? = some a → ∃ i, r.slotsOf a = [i]) :
    r.Ranks l := by
  apply Option.isSome_iff_exists.2
  cases l with
  | truth => exact ⟨.truth, rfl⟩
  | positive a =>
    obtain ⟨i, hi⟩ := h a rfl
    exact ⟨.positive i, slotted?_iff.2 (.inr ⟨a, i, hi, rfl, rfl, rfl⟩)⟩
  | negative a =>
    obtain ⟨i, hi⟩ := h a rfl
    exact ⟨.negative i, slotted?_iff.2 (.inr ⟨a, i, hi, rfl, rfl, rfl⟩)⟩

/-- Literals whose atoms have one slot each are compared by their places. -/
theorem compare_run {l m : Literal α} (hl : r.Ranks l) (hm : r.Ranks m) :
    (compare l m).run.run r = (.ok (Ord.compare (r.place l) (r.place m)), r) := by
  obtain ⟨k, hl⟩ := Option.isSome_iff_exists.1 hl
  obtain ⟨k', hm⟩ := Option.isSome_iff_exists.1 hm
  rw [place_eq hl, place_eq hm, ← Literal.orderBy_eq_compare]
  unfold compare Literal.orderBy
  obtain ⟨rfl, rfl⟩ | ⟨a, i, ha, hla, hki, hlk⟩ := slotted?_iff.1 hl
  · obtain ⟨rfl, rfl⟩ | ⟨b, j, -, hmb, hkj, -⟩ := slotted?_iff.1 hm
    · rfl
    · rw [hmb, hkj]
      rfl
  · obtain ⟨rfl, rfl⟩ | ⟨b, j, hb, hmb, hkj, hmk⟩ := slotted?_iff.1 hm
    · rw [hla, hki]
      rfl
    · -- both atoms are ranked already, so the ranking stays as it is
      rw [hla, hki, hmb, hkj, hlk, hmk]
      show (rank a >>= fun i => rank b >>= fun j => _).run.run r = _
      rw [run_bind (rank_of_slotsOf ha), run_bind (rank_of_slotsOf hb)]
      rfl

/-! ## §4. Slots where equality is an equivalence -/

section Equivalence

variable [EquivBEq α] {l m : Literal α}

/-- Equal atoms have the same slots. -/
theorem slotsOf_congr (h : (a == b) = true) : r.slotsOf a = r.slotsOf b := by
  have hab : (fun c => c == a) = (fun c => c == b) := funext fun c => BEq.congr_right h
  rw [slotsOf_eq_findIdxs, slotsOf_eq_findIdxs, hab]

/-- Atoms with a slot in common are equal. -/
theorem beq_of_slotsOf (ha : i ∈ r.slotsOf a) (hb : i ∈ r.slotsOf b) : (a == b) = true := by
  obtain ⟨_, ha⟩ := mem_slotsOf.1 ha
  obtain ⟨_, hb⟩ := mem_slotsOf.1 hb
  exact BEq.trans (BEq.symm ha) hb

/-- An atom has one slot at most. -/
theorem Distinct.slotsOf_cases (h : r.Distinct) (a : α) :
    r.slotsOf a = [] ∨ ∃ i, r.slotsOf a = [i] := by
  have hsorted : (r.slotsOf a).Pairwise (· < ·) := by
    rw [slotsOf_eq_findIdxs]
    exact List.pairwise_findIdxs
  rcases hslots : r.slotsOf a with _ | ⟨i, _ | ⟨j, rest⟩⟩
  · exact .inl rfl
  · exact .inr ⟨i, rfl⟩
  · -- two slots would hold atoms that are equal, both being equal to this one
    exfalso
    rw [hslots] at hsorted
    have hij : i < j := List.rel_of_pairwise_cons hsorted List.mem_cons_self
    have hi : i ∈ r.slotsOf a := by rw [hslots]; exact List.mem_cons_self
    have hj : j ∈ r.slotsOf a := by
      rw [hslots]
      exact List.mem_cons_of_mem _ List.mem_cons_self
    obtain ⟨hi, hia⟩ := mem_slotsOf.1 hi
    obtain ⟨hj, hja⟩ := mem_slotsOf.1 hj
    have hne := List.pairwise_iff_getElem.1 h i j hi hj hij
    rw [BEq.trans hia (BEq.symm hja)] at hne
    cases hne

/-- Ranking an atom does not fail and leaves it with its slot. -/
theorem Distinct.exists_rank (h : r.Distinct) (a : α) :
    ∃ i s, (rank a).run.run r = (.ok i, s) ∧ s.slotsOf a = [i] := by
  obtain ⟨i, s, hrank⟩ : ∃ i s, (rank a).run.run r = (.ok i, s) := by
    rw [rank_run]
    obtain hnone | ⟨i, hone⟩ := h.slotsOf_cases a
    · rw [hnone]
      exact ⟨_, _, rfl⟩
    · rw [hone]
      exact ⟨i, r, rfl⟩
  exact ⟨i, s, hrank, slotsOf_of_rank hrank⟩

/-- A ranked atom keeps its slot. -/
theorem Later.slotsOf (h : Later r s) (hr : r.Distinct) (ha : r.slotsOf a = [i]) :
    s.slotsOf a = [i] := by
  -- the slot is still there, and the atom has no second one
  obtain ⟨more, hmore⟩ := h.exists_slotsOf a
  rw [ha] at hmore
  obtain hnone | ⟨j, hone⟩ := (h.distinct hr).slotsOf_cases a
  · rw [hnone] at hmore
    cases hmore
  · rw [hone] at hmore ⊢
    rw [(List.cons.inj hmore).1]

/-- A slot stays that of its literal. -/
theorem Later.slotted?_eq {k : Literal Nat} (h : Later r s) (hr : r.Distinct)
    (hl : r.slotted? l = some k) : s.slotted? l = some k := by
  rw [slotted?_iff] at hl ⊢
  obtain htruth | ⟨a, i, ha, hrest⟩ := hl
  · exact .inl htruth
  · exact .inr ⟨a, i, h.slotsOf hr ha, hrest⟩

/-- A literal that is ranked stays so. -/
theorem Later.ranks (h : Later r s) (hr : r.Distinct) (hl : r.Ranks l) : s.Ranks l := by
  obtain ⟨k, hk⟩ := Option.isSome_iff_exists.1 hl
  exact Option.isSome_iff_exists.2 ⟨k, h.slotted?_eq hr hk⟩

/-- A literal that is ranked keeps its place. -/
theorem Later.place (h : Later r s) (hr : r.Distinct) (hl : r.Ranks l) :
    s.place l = r.place l := by
  obtain ⟨k, hk⟩ := Option.isSome_iff_exists.1 hl
  rw [place_eq hk, place_eq (h.slotted?_eq hr hk)]

/-- Equal literals have the same slots. -/
theorem slotted?_congr (h : (l == m) = true) : r.slotted? l = r.slotted? m := by
  cases l with
  | truth =>
    cases m with
    | truth => rfl
    | positive | negative => cases h
  | positive a =>
    cases m with
    | positive b => simp only [Ranking.slotted?, slotsOf_congr (r := r) (a := a) (b := b) h]
    | truth | negative => cases h
  | negative a =>
    cases m with
    | negative b => simp only [Ranking.slotted?, slotsOf_congr (r := r) (a := a) (b := b) h]
    | truth | positive => cases h

/-- Equal literals have the same place. -/
theorem place_congr (h : (l == m) = true) : r.place l = r.place m := by
  unfold place
  rw [slotted?_congr h]

/-- Two literals have the same place just if they are equal. -/
theorem place_eq_iff (hl : r.Ranks l) (hm : r.Ranks m) :
    r.place l = r.place m ↔ (l == m) = true := by
  constructor
  · intro h
    obtain ⟨k, hl⟩ := Option.isSome_iff_exists.1 hl
    obtain ⟨k', hm⟩ := Option.isSome_iff_exists.1 hm
    rw [place_eq hl, place_eq hm] at h
    rw [← Literal.code_injective h] at hm
    obtain ⟨rfl, rfl⟩ | ⟨a, i, ha, hla, hki, hlk⟩ := slotted?_iff.1 hl
    · obtain ⟨rfl, -⟩ | ⟨b, j, -, -, hkj, -⟩ := slotted?_iff.1 hm
      · exact BEq.rfl
      · cases hkj
    · obtain ⟨-, rfl⟩ | ⟨b, j, hb, hmb, hkj, hmk⟩ := slotted?_iff.1 hm
      · cases hki
      -- Equal places are literals of one kind whose atoms are in one slot.
      · have hij : i = j := Option.some.inj (hki.symm.trans hkj)
        have hab : (a == b) = true := by
          apply beq_of_slotsOf (r := r) (i := i)
          · rw [ha]
            exact List.mem_cons_self
          · rw [hb, hij]
            exact List.mem_cons_self
        exact Literal.beq_of_atoms hla hmb hab (hlk.trans hmk.symm)
  · exact place_congr

end Equivalence

end Ranking
end LinearTime
