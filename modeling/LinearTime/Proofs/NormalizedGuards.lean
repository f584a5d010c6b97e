/-
  LinearTime.Proofs.NormalizedGuards — equal guards have one normal form.

  Normalizing ranks the atoms of a guard, sorts its literals by their places and
  drops repetitions among neighbours.  What is left ascends strictly, and
  guards in that form are equal just if they list the same places.  Later
  rankings leave places alone, so normal forms stay normal.

  Main results:
    * `Ranking.Distinct.sort_run` — sorting ranks all atoms and does not fail.
    * `Guard.Normal.beq_iff` — equal normal forms have equal literals.
    * `Guard.Normal.compare_run` — the literals of a normal form ascend.
    * `Guard.exists_normalized` — every guard has a normal form.
-/

import LinearTime.Proofs.Slots

namespace LinearTime

variable {α : Type} [BEq α] {r s : Ranking α}

/-! ## §1. Sorting -/

namespace Ranking

omit [BEq α] in
theorem discard_run {β : Type} {x : Ranked α β} {y : β} (h : x.run.run r = (.ok y, s)) :
    (discard x).run.run r = (.ok (), s) := by
  have hbind : discard x = x >>= fun _ => pure () := (bind_pure_comp (Function.const β ()) x).symm
  rw [hbind, run_bind h]
  rfl

theorem rankAtoms_cons_of_none {l : Literal α} (hl : l.atom? = none) (ls : List (Literal α)) :
    rankAtoms (l :: ls) = rankAtoms ls := by
  rw [rankAtoms, hl]

theorem rankAtoms_cons_of_some {l : Literal α} {a : α} (hl : l.atom? = some a)
    (ls : List (Literal α)) :
    rankAtoms (l :: ls) = discard (rank a) >>= fun _ => rankAtoms ls := by
  rw [rankAtoms, hl]

/-- What stands for the literals, next to them. -/
theorem exists_slotted (ls : List (Literal α)) (h : ∀ l ∈ ls, r.Ranks l) :
    ∃ slotted, (ls.mapM fun l => (r.slotted? l).map (·, l)) = some slotted ∧
      slotted.map (·.2) = ls ∧ ∀ x ∈ slotted, r.slotted? x.2 = some x.1 := by
  induction ls with
  | nil => exact ⟨[], rfl, rfl, by simp⟩
  | cons l ls ih =>
    obtain ⟨k, hk⟩ := Option.isSome_iff_exists.1 (h l List.mem_cons_self)
    obtain ⟨slotted, hslotted, hliterals, hplaces⟩ :=
      ih fun m hm => h m (List.mem_cons_of_mem _ hm)
    refine ⟨(k, l) :: slotted, ?_, by rw [List.map_cons, hliterals], ?_⟩
    · rw [List.mapM_cons, hk, hslotted]
      rfl
    · exact List.forall_mem_cons.2 ⟨hk, hplaces⟩

variable [EquivBEq α]

/-- Where atoms are distinct, ranking those of some literals succeeds and ranks them. -/
theorem Distinct.rankAtoms_run (h : r.Distinct) (ls : List (Literal α)) :
    ∃ s, (rankAtoms ls).run.run r = (.ok (), s) ∧ Later r s ∧ ∀ l ∈ ls, s.Ranks l := by
  induction ls generalizing r with
  | nil => exact ⟨r, rfl, .refl, by simp⟩
  | cons l ls ih =>
    cases hl : l.atom? with
    | none =>
      obtain ⟨s, hrun, hlater, hranks⟩ := ih h
      rw [rankAtoms_cons_of_none hl]
      have hfirst : s.Ranks l := ranks_of_slotsOf fun a ha => by rw [hl] at ha; cases ha
      exact ⟨s, hrun, hlater, List.forall_mem_cons.2 ⟨hfirst, hranks⟩⟩
    | some a =>
      -- the slot that the atom gets here is kept while the others are ranked
      obtain ⟨i, t, hrank, hslot⟩ := h.exists_rank a
      have hrt : Later r t := .rank .refl hrank
      obtain ⟨s, hrun, hlater, hranks⟩ := ih (hrt.distinct h)
      rw [rankAtoms_cons_of_some hl, run_bind (discard_run hrank)]
      have hfirst : s.Ranks l := ranks_of_slotsOf fun b hb => by
        rw [hl] at hb
        cases hb
        exact ⟨i, hlater.slotsOf (hrt.distinct h) hslot⟩
      exact ⟨s, hrun, hrt.trans hlater, List.forall_mem_cons.2 ⟨hfirst, hranks⟩⟩

/-- Sorting ranks the atoms of all literals and puts these in the order of their
    places. -/
theorem Distinct.sort_run (h : r.Distinct) (ls : List (Literal α)) :
    ∃ sorted s, (sort ls).run.run r = (.ok sorted, s) ∧ Later r s ∧ (∀ l ∈ ls, s.Ranks l) ∧
      sorted.Perm ls ∧ sorted.Pairwise fun l m => s.place l ≤ s.place m := by
  obtain ⟨s, hrun, hlater, hranks⟩ := h.rankAtoms_run ls
  obtain ⟨slotted, hslotted, hliterals, hplaces⟩ := exists_slotted ls hranks
  let before (x y : Literal Nat × Literal α) : Bool := notAfter x.1 y.1
  have hperm : (slotted.mergeSort before).Perm slotted := List.mergeSort_perm slotted before
  refine ⟨(slotted.mergeSort before).map (·.2), s, ?_, hlater, hranks, ?_, ?_⟩
  · unfold sort
    have hget : (get : Ranked α (Ranking α)).run.run s = (.ok s, s) := rfl
    rw [run_bind hrun, run_bind hget, hslotted]
    rfl
  · have hmap := hperm.map (·.2)
    rwa [hliterals] at hmap
  -- Sorting by the literals over slots, that is, by the places.
  · have hsorted : (slotted.mergeSort before).Pairwise fun x y => before x y = true := by
      apply List.pairwise_mergeSort
      · intro x y z hxy hyz
        exact notAfter_iff.2 ((notAfter_iff.1 hxy).trans (notAfter_iff.1 hyz))
      · intro x y
        rw [Bool.or_eq_true]
        exact (Nat.le_total x.1.code y.1.code).imp notAfter_iff.2 notAfter_iff.2
    apply List.pairwise_map.2
    apply hsorted.imp_of_mem
    intro x y hx hy hxy
    rw [place_eq (hplaces x (hperm.mem_iff.1 hx)), place_eq (hplaces y (hperm.mem_iff.1 hy))]
    exact notAfter_iff.1 hxy

end Ranking

/-! ## §2. Dropping repetitions -/

namespace Guard

variable {l last : Literal α} {ls : List (Literal α)}

/-- What follows the last literal kept loses no place and gains none. -/
theorem mem_places_dedupAfter [EquivBEq α] (r : Ranking α) (last : Literal α)
    (ls : List (Literal α)) (n : Nat) :
    n ∈ (last :: dedupAfter last ls).map r.place ↔ n ∈ (last :: ls).map r.place := by
  induction ls generalizing last with
  | nil => rfl
  | cons l ls ih =>
    unfold dedupAfter
    split
    case isTrue heq =>
      -- the literal that is dropped has the place of the one in front
      have hplace : r.place l = r.place last := Ranking.place_congr heq
      rw [ih]
      simp only [List.map_cons, List.mem_cons, hplace, or_self_left]
    case isFalse =>
      have hrest := ih l
      simp only [List.map_cons, List.mem_cons] at hrest ⊢
      rw [hrest]

/-- Repetitions hold no places of their own. -/
theorem mem_places_dedup [EquivBEq α] (r : Ranking α) (ls : List (Literal α)) (n : Nat) :
    n ∈ (dedup ls).map r.place ↔ n ∈ ls.map r.place := by
  cases ls with
  | nil => rfl
  | cons l ls => exact mem_places_dedupAfter r l ls n

theorem dedupAfter_sublist (last : Literal α) (ls : List (Literal α)) :
    (dedupAfter last ls).Sublist ls := by
  induction ls generalizing last with
  | nil => exact .refl _
  | cons l ls ih =>
    unfold dedupAfter
    split
    case isTrue => exact .cons _ (ih last)
    case isFalse => exact .cons_cons _ (ih l)

/-- Dropping repetitions only drops literals. -/
theorem dedup_sublist (ls : List (Literal α)) : (dedup ls).Sublist ls := by
  cases ls with
  | nil => exact .refl _
  | cons l ls => exact .cons_cons _ (dedupAfter_sublist l ls)

/-- In sorted literals equal ones are neighbours, so none are left. -/
theorem pairwise_dedupAfter [EquivBEq α] (hranks : ∀ l ∈ last :: ls, r.Ranks l)
    (hsorted : (last :: ls).Pairwise fun l m => r.place l ≤ r.place m) :
    (last :: dedupAfter last ls).Pairwise fun l m => r.place l < r.place m := by
  induction ls generalizing last with
  | nil => exact List.pairwise_singleton _ _
  | cons l ls ih =>
    obtain ⟨hlast, hrest⟩ := List.pairwise_cons.1 hsorted
    obtain ⟨hlastRanks, hrestRanks⟩ := List.forall_mem_cons.1 hranks
    unfold dedupAfter
    split
    case isTrue =>
      apply ih
      · exact List.forall_mem_cons.2 ⟨hlastRanks, (List.forall_mem_cons.1 hrestRanks).2⟩
      · exact hsorted.sublist (.cons_cons _ (List.sublist_cons_self _ _))
    case isFalse hne =>
      have hascending := ih hrestRanks hrest
      -- a different literal has a different place
      have hlt : r.place last < r.place l := by
        apply Nat.lt_of_le_of_ne (hlast l List.mem_cons_self)
        intro heq
        apply hne
        exact (Ranking.place_eq_iff (hrestRanks l List.mem_cons_self) hlastRanks).1 heq.symm
      apply List.pairwise_cons.2 ⟨?_, hascending⟩
      intro m hm
      rcases List.mem_cons.1 hm with rfl | hm
      · exact hlt
      · exact hlt.trans ((List.pairwise_cons.1 hascending).1 m hm)

/-- Sorted literals, without repetitions, have ascending places. -/
theorem pairwise_dedup [EquivBEq α] (hranks : ∀ l ∈ ls, r.Ranks l)
    (hsorted : ls.Pairwise fun l m => r.place l ≤ r.place m) :
    (dedup ls).Pairwise fun l m => r.place l < r.place m := by
  cases ls with
  | nil => exact .nil
  | cons l ls => exact pairwise_dedupAfter hranks hsorted

/-! ## §3. Guards by the places of their literals -/

/-- The places of the literals, in their order. -/
def places (r : Ranking α) (g : Guard α) : List Nat := g.literals.map r.place

/-- Whether the atoms of all literals have just one slot. -/
def IsRanked (r : Ranking α) (g : Guard α) : Prop := ∀ l ∈ g.literals, r.Ranks l

section Places

variable [EquivBEq α] {g h : Guard α}

/-- A guard is part of another just when its places are among the other's. -/
theorem subterm_iff_places (hg : Guard.IsRanked r g) (hh : Guard.IsRanked r h) :
    g.subterm h = true ↔ ∀ n ∈ g.places r, n ∈ h.places r := by
  unfold places
  rw [subterm_iff, List.forall_mem_map]
  apply forall₂_congr
  intro l hl
  rw [List.mem_map]
  apply exists_congr
  intro m
  apply and_congr_right
  intro hm
  rw [← Ranking.place_eq_iff (hg l hl) (hh m hm), eq_comm]

/-- Guards are equal just if they have the same places. -/
theorem beq_iff_places (hg : Guard.IsRanked r g) (hh : Guard.IsRanked r h) :
    (g == h) = true ↔ ∀ n, n ∈ g.places r ↔ n ∈ h.places r := by
  have hparts : (g == h) = true ↔ g.subterm h = true ∧ h.subterm g = true := Bool.and_eq_true_iff
  rw [hparts, subterm_iff_places hg hh, subterm_iff_places hh hg]
  exact ⟨fun both n => ⟨both.1 n, both.2 n⟩, fun same => ⟨fun n => (same n).1, fun n => (same n).2⟩⟩

/-- Literals are equal in their order just if their places are. -/
theorem literals_beq_iff_places {ls ms : List (Literal α)} (hls : ∀ l ∈ ls, r.Ranks l)
    (hms : ∀ m ∈ ms, r.Ranks m) : (ls == ms) = true ↔ ls.map r.place = ms.map r.place := by
  induction ls generalizing ms with
  | nil => cases ms <;> simp
  | cons l ls ih =>
    cases ms with
    | nil => simp
    | cons m ms =>
      obtain ⟨hl, hls⟩ := List.forall_mem_cons.1 hls
      obtain ⟨hm, hms⟩ := List.forall_mem_cons.1 hms
      rw [List.cons_beq_cons, Bool.and_eq_true, ih hls hms, ← Ranking.place_eq_iff hl hm,
        List.map_cons, List.map_cons, List.cons.injEq]

end Places

/-! ## §4. Normal forms -/

/-- All atoms are ranked, and the literals ascend. -/
structure Normal (r : Ranking α) (g : Guard α) : Prop where
  ranked : Guard.IsRanked r g
  ascending : g.literals.Pairwise fun l m => r.place l < r.place m

namespace Normal

variable [EquivBEq α] {g h : Guard α}

/-- A normal form stays one, whatever is ranked after it. -/
theorem later (hg : Normal r g) (hr : r.Distinct) (hrs : Ranking.Later r s) : Normal s g where
  ranked l hl := hrs.ranks hr (hg.ranked l hl)
  ascending := by
    apply hg.ascending.imp_of_mem
    intro l m hl hm hlt
    rwa [hrs.place hr (hg.ranked l hl), hrs.place hr (hg.ranked m hm)]

omit [EquivBEq α] in
/-- Each literal of a normal form is found to stand before all that follow, and
    asking changes nothing. -/
theorem compare_run (hg : Normal r g) :
    g.literals.Pairwise fun l m => (Ranking.compare l m).run.run r = (.ok .lt, r) := by
  apply hg.ascending.imp_of_mem
  intro l m hl hm hlt
  rw [Ranking.compare_run (hg.ranked l hl) (hg.ranked m hm), Nat.compare_eq_lt.2 hlt]

/-- Normal forms are equal just if they have the same literals in the same order. -/
theorem beq_iff (hg : Normal r g) (hh : Normal r h) :
    (g.literals == h.literals) = true ↔ (g == h) = true := by
  rw [literals_beq_iff_places hg.ranked hh.ranked, beq_iff_places hg.ranked hh.ranked]
  constructor
  · intro heq n
    unfold places
    rw [heq]
  · -- ascending lists with the same members are the same
    intro hsame
    have hascending {k : Guard α} (hk : Normal r k) : (k.places r).Pairwise (· < ·) :=
      List.pairwise_map.2 hk.ascending
    exact (hascending hg).eq_of_mem_iff (hascending hh) hsame

end Normal

variable [EquivBEq α]

/-- Every guard has a normal form. -/
theorem exists_normalized (hr : r.Distinct) (g : Guard α) :
    ∃ n s, g.normalized.run.run r = (.ok n, s) ∧ Ranking.Later r s ∧ Normal s n ∧
      (n == g) = true := by
  obtain ⟨sorted, s, hrun, hlater, hranks, hperm, hsorted⟩ := hr.sort_run g.literals
  have hsortedRanks (l : Literal α) (hl : l ∈ sorted) : s.Ranks l := hranks l (hperm.mem_iff.1 hl)
  have hnormal : Normal s ⟨dedup sorted⟩ := {
    ranked := fun l hl => hsortedRanks l ((dedup_sublist sorted).subset hl)
    ascending := pairwise_dedup hsortedRanks hsorted }
  refine ⟨⟨dedup sorted⟩, s, ?_, hlater, hnormal, ?_⟩
  · unfold normalized
    rw [Ranking.run_bind hrun]
    rfl
  · rw [beq_iff_places hnormal.ranked hranks]
    intro n
    exact (mem_places_dedup s sorted n).trans (hperm.map s.place).mem_iff

/-- Normalizing succeeds and gives an equal guard that the same letters enable,
    with literals in strictly ascending order.  A guard that is normalized by the
    same ranking, at once or after further rankings, gets the same literals just
    if it is equal. -/
theorem normalization_is_canonical (hr : r.Reached) (g : Guard α) :
    ∃ n s, g.normalized.run.run r = (.ok n, s) ∧ s.Reached ∧ (n == g) = true ∧
      (∀ v : Valuation α, n.enabled v = g.enabled v) ∧
      ∀ s', Ranking.Later s s' →
        n.literals.Pairwise (fun l m => (Ranking.compare l m).run.run s' = (.ok .lt, s')) ∧
        ∀ h : Guard α, ∃ k t, h.normalized.run.run s' = (.ok k, t) ∧
          ((n.literals == k.literals) = true ↔ (g == h) = true) := by
  obtain ⟨n, s, hn, hrs, hnormal, hng⟩ := exists_normalized hr.distinct g
  have hs : s.Reached := Ranking.Later.trans hr hrs
  refine ⟨n, s, hn, hs, hng, fun v => enabled_congr hng, ?_⟩
  intro s' hss'
  -- later rankings keep the order
  have hnormal' : Normal s' n := hnormal.later hs.distinct hss'
  have hs' : s'.Distinct := hss'.distinct hs.distinct
  refine ⟨hnormal'.compare_run, ?_⟩
  intro h
  obtain ⟨k, t, hk, hst, hkNormal, hkh⟩ := exists_normalized hs' h
  refine ⟨k, t, hk, ?_⟩
  rw [(hnormal'.later hs' hst).beq_iff hkNormal, BEq.congr_left hng, BEq.congr_right hkh]

/-- After ranking `a`, the guards `!b & a & !b` and `a & !b & a` get the same
    literals, and `b & a` gets others. -/
theorem normalization_is_canonical_reordered :
    (Ranking.mk ["a"]).Reached ∧
      ∃ n s, (Guard.mk [.negative "b", .positive "a", .negative "b"]).normalized.run.run ⟨["a"]⟩
          = (.ok n, s) ∧
        n.literals.Pairwise (fun l m => (Ranking.compare l m).run.run s = (.ok .lt, s)) ∧
        (∃ k t, (Guard.mk [.positive "a", .negative "b", .positive "a"]).normalized.run.run s
            = (.ok k, t) ∧ (n.literals == k.literals) = true) ∧
        ∃ k t, (Guard.mk [.positive "b", .positive "a"]).normalized.run.run s
            = (.ok k, t) ∧ (n.literals == k.literals) = false := by
  have hr : (Ranking.mk ["a"]).Reached := .rank .refl (by rfl)
  obtain ⟨n, s, hn, -, -, -, hlater⟩ :=
    normalization_is_canonical hr ⟨[.negative "b", .positive "a", .negative "b"]⟩
  obtain ⟨hascending, hothers⟩ := hlater s .refl
  -- another order of the same literals, then another guard
  obtain ⟨k, t, hk, hsame⟩ := hothers ⟨[.positive "a", .negative "b", .positive "a"]⟩
  obtain ⟨k', t', hk', hsame'⟩ := hothers ⟨[.positive "b", .positive "a"]⟩
  refine ⟨hr, n, s, hn, hascending, ⟨k, t, hk, hsame.2 (by decide)⟩, k', t', hk', ?_⟩
  rw [Bool.eq_false_iff, Ne, hsame']
  decide

end Guard
end LinearTime
