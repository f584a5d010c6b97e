/-
  LinearTime.Proofs.RankingHistories — what a ranking keeps over all its calls.

  Atoms are ranked, literals compared and sorted, with one ranking, in any order,
  and some of the calls fail, perhaps in the middle.  A call does nothing to the
  ranking but rank atoms, and an atom that cannot be ranked leaves it alone.  So
  every call, failing or not, leads to a later ranking (`Later`), and what holds of
  those holds over every history: slots are appended and never changed.

  Equality need not be transitive for that.  An atom may come to equal a second
  slot when one is appended; then it has no rank any more, but never another one.

  Main results:
    * `Advances` — the form of the statements about calls, with `Advances.bind` for
      one after the other.
    * `rank_advances`, `compare_advances`, `sort_advances` — the calls.
    * `Later.rank_again` — what ranking an atom again may give.
    * `slots_are_stable` — all of it, over every history.
-/

import LinearTime.Proofs.NormalizedGuards

namespace LinearTime
namespace Ranking

variable {α : Type} [BEq α] {r s t u : Ranking α} {a b : α} {i j : Nat}

/-! ## §1. Calls -/

/-- From `r` the computation leads to a later ranking, whether it fails or not. -/
def Advances {β : Type} (x : Ranked α β) (r : Ranking α) : Prop := Later r (x.run.run r).2

theorem Advances.pure {β : Type} (y : β) : Advances (Pure.pure y) r := .refl

/-- Computations that advance do so one after the other, where the first fails too. -/
theorem Advances.bind {β γ : Type} {x : Ranked α β} {f : β → Ranked α γ} (hx : Advances x r)
    (hf : ∀ y s, Advances (f y) s) : Advances (x >>= f) r := by
  unfold Advances at hx ⊢
  cases h : x.run.run r with
  | mk outcome s =>
    rw [h] at hx
    cases outcome with
    | error fault =>
      rw [run_bind_error h]
      exact hx
    | ok y =>
      rw [run_bind h]
      exact hx.trans (hf y s)

/-- Looking at the ranking does nothing to it. -/
theorem Advances.get {β : Type} {f : Ranking α → Ranked α β} (h : Advances (f r) r) :
    Advances (MonadState.get >>= f) r := h

theorem Advances.discard {β : Type} {x : Ranked α β} (hx : Advances x r) :
    Advances (discard x) r := by
  have hbind : Functor.discard x = x >>= fun _ => Pure.pure () :=
    (bind_pure_comp (Function.const β ()) x).symm
  rw [hbind]
  exact hx.bind fun _ _ => .pure ()

/-- An atom that cannot be ranked leaves the ranking as it is. -/
theorem rank_advances (a : α) (r : Ranking α) : Advances (rank a) r := by
  cases h : (rank a).run.run r with
  | mk outcome s =>
    unfold Advances
    cases outcome with
    | ok i =>
      rw [h]
      exact .rank .refl h
    | error fault =>
      rw [rank_run] at h ⊢
      split at h
      case h_1 => cases h
      case h_2 => cases h
      case h_3 => exact .refl

/-- Comparing two literals ranks what is not ranked and changes nothing else. -/
theorem compare_advances (l m : Literal α) (r : Ranking α) : Advances (compare l m) r := by
  unfold compare
  split
  next a b _ _ =>
    exact (rank_advances a r).bind fun _ s => (rank_advances b s).bind fun _ _ => .pure _
  next => exact .pure _
  next => exact .pure _
  next => exact .pure _

/-- So does ranking the atoms of a guard. -/
theorem rankAtoms_advances (ls : List (Literal α)) (r : Ranking α) :
    Advances (rankAtoms ls) r := by
  induction ls generalizing r with
  | nil => exact .pure ()
  | cons l ls ih =>
    cases hl : l.atom? with
    | none =>
      rw [rankAtoms_cons_of_none hl]
      exact ih r
    | some a =>
      rw [rankAtoms_cons_of_some hl]
      exact (rank_advances a r).discard.bind fun _ s => ih s

/-- Whichever comparisons are made, and whichever of them fail. -/
theorem answer_later {γ : Type} (tree : ComparisonTree (Literal α) γ)
    (fault : Option (RankingFault α)) (r : Ranking α) : Later r (answer r fault tree).2 := by
  induction tree generalizing fault r with
  | result value => cases fault <;> exact .refl
  | contradiction => exact .refl
  | ask l m next ih =>
    have hcompare : Later r ((compare l m).run.run r).2 := compare_advances l m r
    rw [answer]
    generalize (compare l m).run.run r = result at hcompare ⊢
    obtain ⟨outcome, s⟩ := result
    cases outcome with
    | ok o => exact hcompare.trans (ih _ fault s)
    | error f => exact hcompare.trans (ih false _ s)

/-- So does sorting literals. -/
theorem sort_advances (ls : List (Literal α)) (r : Ranking α) : Advances (sort ls) r := by
  unfold sort
  refine (rankAtoms_advances ls r).bind fun _ s => .get ?_
  -- from here on the ranking is `s`
  split
  next => exact .pure _
  next =>
    have hanswer := answer_later (Sorting.sort ls) none s
    generalize s.answer none (Sorting.sort ls) = result at hanswer ⊢
    obtain ⟨outcome, t⟩ := result
    cases outcome <;> exact hanswer

/-- One call, on whatever atoms or literals. -/
inductive Call (α : Type) where
  | rank (atom : α)
  | compare (left right : Literal α)
  | sort (literals : List (Literal α))

namespace Call

/-- What the call does, apart from its result. -/
def run : Call α → Ranked α Unit
  | rank a => discard (Ranking.rank a)
  | compare l m => discard (Ranking.compare l m)
  | sort ls => discard (Ranking.sort ls)

/-- So does every call. -/
theorem run_advances (c : Call α) (r : Ranking α) : Advances c.run r := by
  cases c with
  | rank a => exact (rank_advances a r).discard
  | compare l m => exact (compare_advances l m r).discard
  | sort ls => exact (sort_advances ls r).discard

/-- The ranking after some calls, failing ones included. -/
def runAll (calls : List (Call α)) (r : Ranking α) : Ranking α :=
  calls.foldl (fun r c => (c.run.run.run r).2) r

/-- What a whole history does. -/
theorem runAll_later (calls : List (Call α)) (r : Ranking α) : Later r (runAll calls r) := by
  induction calls generalizing r with
  | nil => exact .refl
  | cons c calls ih => exact (c.run_advances r).trans (ih (c.run.run.run r).2)

end Call

/-! ## §2. Slots under any equality -/

/-- Atoms in different slots are not equal, in either order. -/
theorem Distinct.slots_beq_eq_false (h : r.Distinct)
    (hsymm : ∀ a b : α, (a == b) = true → (b == a) = true) (hi : i < r.slots.length)
    (hj : j < r.slots.length) (hne : i ≠ j) : (r.slots[i] == r.slots[j]) = false := by
  rcases Nat.lt_or_gt_of_ne hne with hlt | hgt
  · exact List.pairwise_iff_getElem.1 h i j hi hj hlt
  · -- the later one was found to differ from the earlier one
    have hdiff : (r.slots[j] == r.slots[i]) = false := List.pairwise_iff_getElem.1 h j i hj hi hgt
    apply Bool.eq_false_iff.2
    intro hequal
    rw [hsymm _ _ hequal] at hdiff
    cases hdiff

/-- An atom in one slot equals the atom of this slot only. -/
theorem slot_beq_iff (h : r.slotsOf a = [i]) (j : Nat) :
    (∃ b, r.slots[j]? = some b ∧ (b == a) = true) ↔ j = i := by
  have hmem : j ∈ r.slotsOf a ↔ j = i := by rw [h, List.mem_singleton]
  rw [← hmem, mem_slotsOf]
  constructor
  · rintro ⟨b, hb, hba⟩
    obtain ⟨hlt, rfl⟩ := List.getElem?_eq_some_iff.1 hb
    exact ⟨hlt, hba⟩
  · rintro ⟨hlt, hba⟩
    exact ⟨r.slots[j], List.getElem?_eq_getElem hlt, hba⟩

/-- An atom that was ranked is given its slot again, unless it has come to equal a
    further one. -/
theorem Later.rank_again (h : Later r s) (ha : r.slotsOf a = [i]) :
    ((Ranking.rank a).run.run s).1 = .ok i
      ∨ ((Ranking.rank a).run.run s).1 = .error (.ambiguous a) := by
  obtain ⟨more, hmore⟩ := h.exists_slotsOf a
  rw [ha] at hmore
  rw [rank_run, hmore]
  cases more with
  | nil => exact .inl rfl
  | cons j more => exact .inr rfl

/-! ## §3. Slots where equality is an equivalence -/

section Equivalence

variable [EquivBEq α]

/-- No call fails. -/
theorem Distinct.call_run (h : r.Distinct) (c : Call α) : (c.run.run.run r).1 = .ok () := by
  -- a computation that gives something is not the worse for its result being dropped
  have hdone {β : Type} {x : Ranked α β} {y : β} {s : Ranking α}
      (hx : x.run.run r = (.ok y, s)) : ((discard x).run.run r).1 = .ok () := by
    rw [discard_run hx]
  cases c with
  | rank a =>
    obtain ⟨i, s, hrank, -⟩ := h.exists_rank a
    exact hdone hrank
  | compare l m =>
    suffices hcompare : ∃ o s, (compare l m).run.run r = (.ok o, s) by
      obtain ⟨o, s, hcompare⟩ := hcompare
      exact hdone hcompare
    unfold compare
    split
    next a b _ _ =>
      obtain ⟨i, s, hrank, -⟩ := h.exists_rank a
      obtain ⟨j, t, hrank', -⟩ := (distinct_of_rank h hrank).exists_rank b
      rw [run_bind hrank, run_bind hrank']
      exact ⟨_, t, rfl⟩
    next => exact ⟨_, r, rfl⟩
    next => exact ⟨_, r, rfl⟩
    next => exact ⟨_, r, rfl⟩
  | sort ls =>
    obtain ⟨sorted, s, hsort, -⟩ := h.sort_run ls
    exact hdone hsort

/-- Ranked at any two times, atoms have the same slot just if they are equal. -/
theorem Distinct.slot_eq_iff (h : r.Distinct) (ha : (rank a).run.run r = (.ok i, s))
    (hst : Later s t) (hb : (rank b).run.run t = (.ok j, u)) : i = j ↔ (a == b) = true := by
  have hs : s.Distinct := distinct_of_rank h ha
  have hsu : Later s u := .rank hst hb
  have hai : u.slotsOf a = [i] := hsu.slotsOf hs (slotsOf_of_rank ha)
  have hbj : u.slotsOf b = [j] := slotsOf_of_rank hb
  -- Slots hold what equals them and later calls keep them, so both are slots of `u`.
  constructor
  · rintro rfl
    apply beq_of_slotsOf (r := u) (i := i)
    · rw [hai]
      exact List.mem_cons_self
    · rw [hbj]
      exact List.mem_cons_self
  · intro hab
    rw [slotsOf_congr hab, hbj] at hai
    exact (List.cons.inj hai).1.symm

end Equivalence

/-! ## §4. Histories -/

/-- Slots are stable, even if equality is not transitive.  Let it be reflexive and
    symmetric, and let any calls have been made with a ranking that was empty at first,
    failing ones included.  Whatever is called next, slots are only appended; no two
    hold equal atoms.  If ranking an atom gives a slot, it is the only one whose atom
    equals it, and whatever is called after that, ranking the atom again gives the same
    slot or fails because of the atom.  If equality is transitive as well, then no call
    fails, and two atoms, ranked at any two times, have the same slot just if they are
    equal. -/
theorem slots_are_stable [ReflBEq α] (hsymm : ∀ a b : α, (a == b) = true → (b == a) = true)
    (calls : List (Call α)) :
    let r : Ranking α := Call.runAll calls {}
    (∀ more, ∃ new, (Call.runAll more r).slots = r.slots ++ new)
      ∧ (∀ i j, (hi : i < r.slots.length) → (hj : j < r.slots.length) → i ≠ j →
          (r.slots[i] == r.slots[j]) = false)
      ∧ (∀ a i s, (rank a).run.run r = (.ok i, s) →
          (∀ j, (∃ b, s.slots[j]? = some b ∧ (b == a) = true) ↔ j = i)
            ∧ ∀ more, ((rank a).run.run (Call.runAll more s)).1 = .ok i
                ∨ ((rank a).run.run (Call.runAll more s)).1 = .error (.ambiguous a))
      ∧ ((∀ a b c : α, (a == b) = true → (b == c) = true → (a == c) = true) →
          (∀ c : Call α, (c.run.run.run r).1 = .ok ())
            ∧ ∀ a b i j s t more, (rank a).run.run r = (.ok i, s) →
                (rank b).run.run (Call.runAll more s) = (.ok j, t) →
                (i = j ↔ (a == b) = true)) := by
  intro r
  -- no call puts a value into two slots
  have hr : r.Distinct := Reached.distinct (Call.runAll_later calls {})
  refine ⟨?_, ?_, ?_, ?_⟩
  · intro more
    exact (Call.runAll_later more r).slots
  · intro i j hi hj hne
    exact hr.slots_beq_eq_false hsymm hi hj hne
  · intro a i s ha
    have hslot : s.slotsOf a = [i] := slotsOf_of_rank ha
    exact ⟨slot_beq_iff hslot, fun more => (Call.runAll_later more s).rank_again hslot⟩
  · intro htrans
    have : EquivBEq α := { symm := hsymm _ _, trans := htrans _ _ _ }
    constructor
    · exact hr.call_run
    · intro a b i j s t more ha hb
      exact hr.slot_eq_iff ha (Call.runAll_later more s) hb

/-- Numbers that count as equal if they differ by one at most. -/
structure Near where
  value : Nat

instance : BEq Near := ⟨fun x y => decide (x.value ≤ y.value + 1 ∧ y.value ≤ x.value + 1)⟩

instance : ReflBEq Near := ⟨decide_eq_true ⟨Nat.le_succ _, Nat.le_succ _⟩⟩

/-- The number 3 equals 4 and 2, so sorting fails once these have got their slots.  Then 5
    has the slot of 4, and keeps it until 6 has got one.  Strings cannot fail so. -/
theorem slots_are_stable_near :
    let r : Ranking Near :=
      Call.runAll [.rank ⟨0⟩, .sort [.positive ⟨4⟩, .negative ⟨2⟩, .positive ⟨3⟩]] {}
    (r.slots.map Near.value = [0, 4, 2]
        ∧ (∀ more, ((rank ⟨5⟩).run.run (Call.runAll more r)).1 = .ok 1
            ∨ ((rank ⟨5⟩).run.run (Call.runAll more r)).1 = .error (.ambiguous ⟨5⟩))
        ∧ ((rank ⟨5⟩).run.run (Call.runAll [.rank ⟨6⟩] r)).1 = .error (.ambiguous ⟨5⟩))
      ∧ ∀ c : Call String, (c.run.run.run (Call.runAll [.rank "a"] {})).1 = .ok () := by
  intro r
  constructor
  · have hsymm (a b : Near) (hab : (a == b) = true) : (b == a) = true :=
      decide_eq_true (of_decide_eq_true hab).symm
    obtain ⟨-, -, hranked, -⟩ := slots_are_stable hsymm
      [.rank ⟨0⟩, .sort [.positive ⟨4⟩, .negative ⟨2⟩, .positive ⟨3⟩]]
    obtain ⟨-, hagain⟩ := hranked ⟨5⟩ 1 r rfl
    exact ⟨by decide, hagain, rfl⟩
  · have hsymm (a b : String) : (a == b) = true → (b == a) = true := BEq.symm
    obtain ⟨-, -, -, hequivalence⟩ := slots_are_stable hsymm [.rank "a"]
    exact (hequivalence fun _ _ _ => BEq.trans).1

end Ranking
end LinearTime
