/-
  LinearTime.Proofs.AutomatonLanguage — the words an expanded formula accepts.

  A run of an automaton whose transitions are completions is an unfolding, and
  an unfolding is a run.  The letters that enable the guards are those on which
  the literals of the labels are true, and taking transitions of every
  acceptance set again and again is fairness: a transition belongs to the sets
  of the untils that are not pending.

  Main results:
    * `Automaton.Unfolds.accepting_iff` — the infinite words that are accepted
      are those on which the start is true.
    * `Unfolds.exists_letter` — every transition can be taken on some letter.
    * `Formula.exists_recognizing` — every formula of a session has an automaton
      that accepts just the words on which the formula is true.
    * `Formula.accepts_iff_exists_run` — what an automaton that was expanded says
      about a lasso word is whether there is an accepting run.
-/

import LinearTime.Proofs.TableauAutomaton
import LinearTime.Proofs.Unfoldings

namespace LinearTime

variable {α : Type}

/-! ## §1. Acceptance sets and untils -/

namespace Tableau

variable {untils : List (Formula α)} {now later : FormulaSet α} {k : Nat}

theorem mem_pending : k ∈ pending untils now later
    ↔ ∃ u, untils[k]? = some u ∧ isPending now later u = true := by
  unfold pending
  rw [MarkSet.mem_below]
  constructor
  · rintro ⟨-, hany⟩
    exact Option.any_eq_true _ _ |>.1 hany
  · rintro ⟨u, hu, hp⟩
    refine ⟨(List.getElem?_eq_some_iff.1 hu).1, ?_⟩
    rw [hu]
    exact hp

/-- A transition belongs to the set of an until if the until is not pending. -/
theorem mem_acceptance {u : Formula α} (hu : untils[k]? = some u) :
    k ∈ acceptance untils (pending untils now later) ↔ isPending now later u = false := by
  have hk : k < untils.length := (List.getElem?_eq_some_iff.1 hu).1
  -- there is an until, so the sets are not the placeholder
  have hne : untils.isEmpty = false := by
    cases untils with
    | nil => exact absurd hk (Nat.not_lt_zero k)
    | cons u untils => rfl
  unfold acceptance
  rw [hne, if_neg Bool.false_ne_true, MarkSet.mem_complement, mem_pending]
  constructor
  · rintro ⟨-, hnot⟩
    rw [Bool.eq_false_iff]
    exact fun hp => hnot ⟨u, hu, hp⟩
  · intro hp
    refine ⟨hk, ?_⟩
    rintro ⟨u', hu', hp'⟩
    obtain rfl : u = u' := Option.some.inj (hu.symm.trans hu')
    exact absurd (hp.symm.trans hp') Bool.false_ne_true

/-- Without untils every transition belongs to the only set. -/
theorem mem_acceptance_nil (hk : k < acceptanceSets ([] : List (Formula α))) (p : MarkSet) :
    k ∈ acceptance ([] : List (Formula α)) p := by
  show k ∈ MarkSet.full 1
  exact MarkSet.mem_below.2 ⟨hk, rfl⟩

/-- Each acceptance set is that of an until, or there are no untils. -/
theorem eq_nil_or_exists_until (hk : k < acceptanceSets untils) :
    untils = [] ∨ ∃ u, untils[k]? = some u := by
  cases untils with
  | nil => exact .inl rfl
  | cons u untils =>
    have hlt : k < (u :: untils).length := lt_of_lt_of_eq hk (Nat.max_eq_left (by simp))
    exact .inr ⟨_, List.getElem?_eq_getElem hlt⟩

end Tableau

/-! ## §2. Runs and unfoldings -/

namespace Automaton.Unfolds

variable [BEq α] [EquivBEq α] {a : Automaton α} {U untils : List (Formula α)} {start : FormulaSet α}
  {asked : Nat → FormulaSet α} {word : Nat → Valuation α} {q : Nat → Nat}
  {t : Nat → Transition α}

/-- The atoms that are true at each place of a word. -/
def truths (word : Nat → Valuation α) (i : Nat) (a : α) : Prop := (word i).value a = true

omit [EquivBEq α] in
/-- States asked for along a run are what the labels before them postponed. -/
theorem askedAt_run (h : a.Unfolds U untils start asked) (hq : q 0 = a.initial) (i : Nat) :
    askedAt start (fun i => asked (q (i + 1))) i = asked (q i) := by
  cases i with
  | zero => rw [hq, h.start]; rfl
  | succ i => rfl

/-- An accepting run proves the start true. -/
theorem holds_of_accepting (h : a.Unfolds U untils start asked) (hU : Formula.Family U)
    (huntils : ∀ u ∈ U, u.isStrongUntil = true → u ∈ untils) (hrun : a.Accepting word q t)
    {f : Formula α} (hf : f ∈ start) : f.Holds (truths word) 0 := by
  have hlabel (i : Nat) := h.sound (q i) (t i) (hrun.taken i)
  choose now hc hcompletes using hlabel
  have hstart : start.Within U := h.start ▸ h.within a.initial h.wellFormed.pos
  -- The labels along the run unfold what the initial state asks for.
  have hunfolding : Unfolding start now (fun i => asked (q (i + 1))) := by
    intro i
    rw [h.askedAt_run hrun.start]
    show Completion (asked (q i)) (now i) (asked (q (i + 1)))
    rw [hrun.next]
    exact hc i
  have hlabels (i : Nat) := hunfolding.labels hU hstart i
  have hliterals (i : Nat) : ∀ f ∈ now i, f.isLiteral = true → f.Holds (truths word) i := by
    apply (Guard.enabled_iff _ (hlabels i).ff_not_mem fun a => Iff.rfl).1
    rw [← (hcompletes i).enabled]
    exact hrun.enabled i
  -- Each until has its mark, and the run meets the mark again and again.
  have hfair : Fair U now (fun i => asked (q (i + 1))) := by
    intro u hu huntil n
    obtain ⟨k, hk⟩ := List.mem_iff_getElem?.1 (huntils u hu huntil)
    have hlt : k < a.acceptanceSets := by
      rw [h.sets]
      exact lt_of_lt_of_le (List.getElem?_eq_some_iff.1 hk).1 (Nat.le_max_left _ _)
    obtain ⟨i, hi, hmem⟩ := hrun.again k hlt n
    rw [(hcompletes i).accepting, Tableau.mem_acceptance hk, ← hrun.next] at hmem
    exact ⟨i, hi, hmem⟩
  have hnow : f ∈ now 0 := (hlabels 0).asked f hf
  exact hunfolding.holds hU hstart hfair hliterals f (hstart f hf) 0 (guaranteedBy_of_mem hnow)

/-- A fair unfolding that is true on a word is an accepting run on the word. -/
theorem exists_accepting (h : a.Unfolds U untils start asked) (hU : Formula.Family U)
    (huntils : ∀ u ∈ untils, u ∈ U ∧ u.isStrongUntil = true)
    (hstart : ∀ f ∈ start, f.Holds (truths word) 0) : ∃ q t, a.Accepting word q t := by
  have hwithin : start.Within U := h.start ▸ h.within a.initial h.wellFormed.pos
  obtain ⟨now, later, hunfolding, hfair, hholds⟩ := exists_fair_unfolding hU hwithin hstart
  -- from each state that asks for the right set the label is a transition
  have hstep (i q : Nat) : ∃ tr : Transition α, q < a.states.length →
      asked q = askedAt start later i → tr ∈ a.transitionsOf q ∧ asked tr.target = later i
        ∧ tr.Completes untils (now i) (later i) := by
    by_cases hq : q < a.states.length ∧ asked q = askedAt start later i
    · obtain ⟨tr, htr⟩ := h.complete q hq.1 (now i) (later i) (hq.2 ▸ hunfolding i)
      exact ⟨tr, fun _ _ => htr⟩
    · exact ⟨⟨⟨[]⟩, 0, .empty, false⟩, fun hlt heq => absurd ⟨hlt, heq⟩ hq⟩
  choose next hnext using hstep
  let q : Nat → Nat := fun i => Nat.rec a.initial (fun i q => (next i q).target) i
  have hgood (i : Nat) : q i < a.states.length ∧ asked (q i) = askedAt start later i := by
    induction i with
    | zero => exact ⟨h.wellFormed.pos, h.start⟩
    | succ i ih =>
      obtain ⟨htaken, htarget, -⟩ := hnext i (q i) ih.1 ih.2
      exact ⟨h.wellFormed.target_lt _ _ htaken, htarget⟩
  have hall (i : Nat) := hnext i (q i) (hgood i).1 (hgood i).2
  refine ⟨q, fun i => next i (q i), rfl, fun i => (hall i).1, fun i => ?_, fun i => rfl, ?_⟩
  · rw [(hall i).2.2.enabled]
    refine (Guard.enabled_iff (v := truths word) (i := i) _
      (hunfolding.labels hU hwithin i).ff_not_mem fun a => Iff.rfl).2 ?_
    exact fun f hf _ => hholds i f hf
  · intro k hk n
    rw [h.sets] at hk
    rcases Tableau.eq_nil_or_exists_until hk with rfl | ⟨u, hu⟩
    · refine ⟨n, le_refl n, ?_⟩
      show k ∈ (next n (q n)).accepting
      rw [(hall n).2.2.accepting]
      exact Tableau.mem_acceptance_nil hk _
    · obtain ⟨huU, huntil⟩ := huntils u (List.mem_of_getElem? hu)
      obtain ⟨i, hi, hpending⟩ := hfair u huU huntil n
      refine ⟨i, hi, ?_⟩
      show k ∈ (next i (q i)).accepting
      rw [(hall i).2.2.accepting, Tableau.mem_acceptance hu]
      exact hpending

/-- A word is accepted if the start is true on it. -/
theorem accepting_iff (h : a.Unfolds U untils start asked) (hU : Formula.Family U)
    (huntils : ∀ u, u ∈ untils ↔ u ∈ U ∧ u.isStrongUntil = true) (word : Nat → Valuation α) :
    (∃ q t, a.Accepting word q t) ↔ ∀ f ∈ start, f.Holds (truths word) 0 := by
  constructor
  · rintro ⟨q, t, hrun⟩ f hf
    exact h.holds_of_accepting hU (fun u hu huntil => (huntils u).2 ⟨hu, huntil⟩) hrun hf
  · exact h.exists_accepting hU fun u hu => (huntils u).1 hu

end Automaton.Unfolds

/-! ## §3. Letters of transitions -/

section Letters

variable [BEq α] [EquivBEq α] {s : Session α}

omit [EquivBEq α] in
/-- Equal atoms of a session are the same proposition. -/
theorem Session.Canonical.prop_id_eq (hs : s.Canonical) {i j : Nat} {a b : α}
    (hi : .prop i a ∈ s.interned) (hj : .prop j b ∈ s.interned) (hab : (a == b) = true) :
    i = j :=
  (Formula.prop.inj (hs.shared _ hi _ hj hab)).1

/-- A label does not ask for a letter on which an atom is both true and false. -/
theorem Labels.exists_letter (hs : s.Canonical) {U : List (Formula α)} (hU : Formula.Family U)
    (hinterned : ∀ f ∈ U, f ∈ s.interned) {asked now later : FormulaSet α}
    (h : Labels U asked now later) :
    ∃ letter : Valuation α, (Guard.literalsOf now.toList).enabled letter = true := by
  apply Guard.exists_enabled
  intro i j p a b hi hj
  rw [Bool.eq_false_iff]
  intro hab
  -- a negated proposition refers to the proposition, which is of the session too
  have hoperand : .prop p b ∈ U :=
    hU.operand_mem _ (h.now_within _ hj) _ (List.mem_singleton.2 rfl)
  obtain rfl : i = p :=
    hs.prop_id_eq (hinterned _ (h.now_within _ hi)) (hinterned _ hoperand) hab
  exact h.consistent i j a b hi hj

theorem Automaton.Unfolds.exists_letter (hs : s.Canonical) {U untils : List (Formula α)}
    (hU : Formula.Family U) (hinterned : ∀ f ∈ U, f ∈ s.interned) {a : Automaton α}
    {start : FormulaSet α} {asked : Nat → FormulaSet α} (h : a.Unfolds U untils start asked)
    (q : Nat) (t : Transition α) (ht : t ∈ a.transitionsOf q) :
    ∃ letter : Valuation α, t.guard.enabled letter = true := by
  obtain ⟨now, hc, hcompletes⟩ := h.sound q t ht
  have hlabels : Labels U (asked q) now (asked t.target) :=
    hc.labels hU (h.within q (Automaton.transitionsOf_lt ht))
  obtain ⟨letter, hletter⟩ := hlabels.exists_letter hs hU hinterned
  refine ⟨letter, ?_⟩
  rw [hcompletes.enabled]
  exact hletter

end Letters

/-! ## §4. The automaton of a formula -/

/-- The lasso words of the automaton are the models of the formula, and each
    transition can be taken on some letter. -/
structure Automaton.Recognizes [BEq α] (a : Automaton α) (f : Formula α) : Prop where
  wellFormed : a.WellFormed
  ids : a.states.map (·.id) = List.range a.states.length
  sets_pos : 0 < a.acceptanceSets
  letters : ∀ q, ∀ t ∈ a.transitionsOf q, ∃ letter : Valuation α, t.guard.enabled letter = true
  words : ∀ w : Lasso α, (∃ q t, a.Accepting w.nth q t) ↔ f.Holds w.letter 0

/-- The automaton of a formula of a session: its states ask for sets of subformulas,
    and the initial state asks for the formula.  There is a state for each class of
    nodes. -/
theorem Formula.exists_unfolds [BEq α] [EquivBEq α] {s : List (Formula α)} (hs : Family s)
    {f : Formula α} (hf : f ∈ s) (merge : Merge) :
    ∃ a, f.toAutomaton merge = .ok a
      ∧ a.states.length = (Tableau.grow merge f).classes.first.length
      ∧ a.Unfolds f.subformulas (Tableau.untilsOf f) (.ofList [f])
          (Tableau.grow merge f).askedBy := by
  have hU : Family f.subformulas := hs.subformulas hf
  have hroot : f ∈ f.subformulas := self_mem_subformulas hs hf
  rw [← (Tableau.grow_untils merge f).1]
  exact Tableau.exists_unfolds hU (.grow hU hroot merge) (Tableau.grow_done hs hf merge)
    (Tableau.grow_later?_zero hU hroot merge) (Tableau.grow_asked hU hroot merge)

/-- The automaton of a formula of a session recognizes the formula. -/
theorem Formula.exists_recognizing [BEq α] [EquivBEq α] {s : Session α} (hs : s.Canonical)
    {f : Formula α} (hf : f ∈ s.interned) (merge : Merge) :
    ∃ a, f.toAutomaton merge = .ok a ∧ a.Recognizes f := by
  have hU : Family f.subformulas := hs.family.subformulas hf
  obtain ⟨a, ha, -, hunfolds⟩ := exists_unfolds hs.family hf merge
  refine ⟨a, ha, hunfolds.wellFormed, hunfolds.ids, ?_, ?_, fun w => ?_⟩
  · rw [hunfolds.sets]
    exact lt_of_lt_of_le Nat.zero_lt_one (Nat.le_max_right _ _)
  · exact hunfolds.exists_letter hs hU fun g hg => mem_of_mem_subformulas hs.family hf hg
  · rw [hunfolds.accepting_iff hU (fun u => List.mem_filter) w.nth]
    -- the first state asks for the formula, and for nothing else
    constructor
    · intro hall
      exact hall f (OrderedSet.mem_ofList_singleton.2 rfl)
    · intro hholds g hg
      rw [OrderedSet.mem_ofList_singleton.1 hg]
      exact hholds

/-! ## §5. Deciding acceptance -/

/-- An automaton that a formula was expanded into accepts a lasso word if there is
    an infinite run on the word that takes transitions of every acceptance set
    again and again. -/
theorem Formula.accepts_iff_exists_run [BEq α] {f : Formula α} {merge : Merge} {a : Automaton α}
    (h : f.toAutomaton merge = .ok a) (w : Lasso α) :
    a.accepts w = true ↔ ∃ q t, a.Accepting w.nth q t := by
  -- the product needs no more than transitions that lead to states
  have hwf : a.WellFormed :=
    Tableau.toAutomaton_wellFormed h (Tableau.grow_nodes_ne_nil merge f)
  exact Automaton.accepts_iff hwf w

/-- The formula `p U q`. -/
def Formula.pUntilQ : Formula String := .binary 2 .strongUntil (.prop 0 "p") (.prop 1 "q")

/-- There is a run for `p U q` on the word on which `p` is true at first and `q`
    from then on. -/
theorem Formula.accepts_iff_exists_run_until :
    ∃ a, pUntilQ.toAutomaton .identical = .ok a
      ∧ ∃ q t, a.Accepting
        (⟨[[("p", true)]], [[("q", true)]], List.cons_ne_nil _ _⟩ : Lasso String).nth q t := by
  have haccepts : (pUntilQ.toAutomaton .identical).toOption.map (·.accepts
      ⟨[[("p", true)]], [[("q", true)]], List.cons_ne_nil _ _⟩) = some true := by decide +kernel
  cases hok : pUntilQ.toAutomaton .identical with
  | error refused =>
    rw [hok] at haccepts
    cases haccepts
  | ok a =>
    rw [hok] at haccepts
    exact ⟨a, rfl, (Formula.accepts_iff_exists_run hok _).1 (Option.some.inj haccepts)⟩

end LinearTime
