/-
  LinearTime.Proofs.MergedStates — the two ways of merging nodes compared.

  Whichever way nodes are merged, the states of the automaton ask for the same
  sets of formulas: those that are asked for at some position.  And the
  transitions of a state are the completions of what it asks for, so states that
  ask for the same have the same transitions, up to the names of the targets.
  If nodes are merged that differ in the formulas of now, no two states ask for
  the same.  So

      a state of the finer automaton  ↦  the state of the coarser one
                                         that asks for the same

  maps the one automaton onto the other.

  Main results:
    * `Automaton.Folds` — a map between automata that keeps transitions.
    * `Unfolds.exists_folds` — automata that ask for the same sets.
    * `Formula.coarse_automaton_is_quotient` — the automata of a formula.
-/

import LinearTime.Proofs.AutomatonLanguage
import LinearTime.Proofs.Histories

namespace LinearTime

variable {α : Type} [BEq α]

/-! ## §1. Maps between automata -/

/-- The guards are equal up to order and repetition of literals, and so are marks
    and safety; targets are left aside. -/
structure Transition.Alike (t u : Transition α) : Prop where
  guard : (t.guard == u.guard) = true
  accepting : t.accepting = u.accepting
  safety : t.safety = u.safety

/-- The map leads from the states of `a` onto those of `b`, and the transitions of
    a state become just those of its image. -/
structure Automaton.Folds (a b : Automaton α) (h : Nat → Nat) : Prop where
  initial : h 0 = 0
  lt : ∀ q < a.size, h q < b.size
  onto : ∀ r < b.size, ∃ q < a.size, h q = r
  forth : ∀ q < a.size, ∀ t ∈ a.transitionsOf q,
    ∃ u ∈ b.transitionsOf (h q), u.target = h t.target ∧ t.Alike u
  back : ∀ q < a.size, ∀ u ∈ b.transitionsOf (h q),
    ∃ t ∈ a.transitionsOf q, h t.target = u.target ∧ t.Alike u

/-- A map onto the states of `b` leaves no more states than there were. -/
theorem Automaton.Folds.size_le {a b : Automaton α} {h : Nat → Nat} (hfolds : a.Folds b h) :
    b.size ≤ a.size := by
  have hsubset : Finset.range b.size ⊆ (Finset.range a.size).image h := by
    intro r hr
    obtain ⟨q, hq, rfl⟩ := hfolds.onto r (Finset.mem_range.1 hr)
    exact Finset.mem_image_of_mem h (Finset.mem_range.2 hq)
  calc b.size = (Finset.range b.size).card := (Finset.card_range _).symm
    _ ≤ ((Finset.range a.size).image h).card := Finset.card_le_card hsubset
    _ ≤ (Finset.range a.size).card := Finset.card_image_le
    _ = a.size := Finset.card_range _

/-! ## §2. Automata that ask for the same sets -/

variable [EquivBEq α]

/-- Transitions that the same completion gives. -/
theorem Transition.Completes.alike {t u : Transition α} {untils : List (Formula α)}
    {now later : FormulaSet α} (ht : t.Completes untils now later)
    (hu : u.Completes untils now later) : t.Alike u where
  guard := BEq.trans ht.guard (BEq.symm hu.guard)
  accepting := ht.accepting.trans hu.accepting.symm
  safety := ht.safety.trans hu.safety.symm

namespace Automaton.Unfolds

variable {a b : Automaton α} {U V untils : List (Formula α)} {start : FormulaSet α}
  {askedA askedB : Nat → FormulaSet α}

omit [EquivBEq α] in
/-- Every set that is asked for at some position some state asks for. -/
theorem exists_state (h : a.Unfolds U untils start askedA) {x : FormulaSet α}
    (hx : Tableau.Asked start x) : ∃ q < a.size, askedA q = x := by
  induction hx with
  | start => exact ⟨a.initial, h.wellFormed.pos, h.start⟩
  | @next asked now later _ hc ih =>
    obtain ⟨q, hq, hasked⟩ := ih
    obtain ⟨t, ht, htarget, -⟩ := h.complete q hq now later (hasked ▸ hc)
    exact ⟨t.target, h.wellFormed.target_lt q t ht, htarget⟩

/-- If no two states of `b` ask for the same, then its states are those of `a` with
    the ones merged that do. -/
theorem exists_folds (ha : a.Unfolds U untils start askedA) (hb : b.Unfolds V untils start askedB)
    (hinjective : ∀ q < b.size, ∀ r < b.size, askedB q = askedB r → q = r) :
    ∃ h, a.Folds b h := by
  -- Every state is mapped to the one that asks for the same.
  have himage (q : Nat) : ∃ r, q < a.size → r < b.size ∧ askedB r = askedA q := by
    by_cases hq : q < a.size
    · obtain ⟨r, hr, hasked⟩ := hb.exists_state (ha.reached q hq)
      exact ⟨r, fun _ => ⟨hr, hasked⟩⟩
    · exact ⟨0, fun hlt => absurd hlt hq⟩
  choose h hh using himage
  have hpos : 0 < a.size := ha.wellFormed.pos
  have htarget {q : Nat} {t : Transition α} (ht : t ∈ a.transitionsOf q) : t.target < a.size :=
    ha.wellFormed.target_lt q t ht
  refine ⟨h, ?_, fun q hq => (hh q hq).1, fun r hr => ?_, fun q hq t ht => ?_,
    fun q hq u hu => ?_⟩
  · refine hinjective _ (hh 0 hpos).1 _ hb.wellFormed.pos ?_
    calc askedB (h 0) = askedA 0 := (hh 0 hpos).2
      _ = start := ha.start
      _ = askedB 0 := hb.start.symm
  · obtain ⟨q, hq, hasked⟩ := ha.exists_state (hb.reached r hr)
    exact ⟨q, hq, hinjective _ (hh q hq).1 r hr ((hh q hq).2.trans hasked)⟩
  · -- the completion that `t` is has a transition of the image too
    obtain ⟨now, hc, hcompletes⟩ := ha.sound q t ht
    rw [← (hh q hq).2] at hc
    obtain ⟨u, hu, hasked, hcompletes'⟩ := hb.complete _ (hh q hq).1 now _ hc
    refine ⟨u, hu, ?_, hcompletes.alike hcompletes'⟩
    have hlt := hb.wellFormed.target_lt _ u hu
    have himage := hh t.target (htarget ht)
    exact hinjective _ hlt _ himage.1 (hasked.trans himage.2.symm)
  · obtain ⟨now, hc, hcompletes⟩ := hb.sound _ u hu
    rw [(hh q hq).2] at hc
    obtain ⟨t, ht, hasked, hcompletes'⟩ := ha.complete q hq now _ hc
    refine ⟨t, ht, ?_, hcompletes'.alike hcompletes⟩
    have hlt := hb.wellFormed.target_lt _ u hu
    have himage := hh t.target (htarget ht)
    exact hinjective _ himage.1 _ hlt (himage.2.trans hasked)

end Automaton.Unfolds

/-! ## §3. The automata of a formula -/

namespace Formula

variable {s : Session α} {f : Formula α}

/-- The automaton whose nodes are merged by the formulas next and the untils
    pending is a quotient of the one whose nodes are only merged if they are the
    same: its states are the classes of states that ask for the same.  So it has no
    more states, and as many acceptance sets. -/
theorem coarse_automaton_is_quotient (hs : s.Reached) (hf : f ∈ s.interned) :
    (∀ merge, (Tableau.grow merge f).work = [])
      ∧ ∃ fine coarse, f.toAutomaton .identical = .ok fine
        ∧ f.toAutomaton .nextAndPending = .ok coarse
        ∧ (∃ h, fine.Folds coarse h)
        ∧ coarse.size ≤ fine.size
        ∧ coarse.acceptanceSets = fine.acceptanceSets := by
  have hfamily := hs.canonical.family
  obtain ⟨fine, hfine, -, hunfolds⟩ := exists_unfolds hfamily hf .identical
  obtain ⟨coarse, hcoarse, hsize, hunfolds'⟩ := exists_unfolds hfamily hf .nextAndPending
  obtain ⟨h, hfolds⟩ := hunfolds.exists_folds hunfolds' fun q hq r hr hasked =>
    Tableau.askedBy_injective (Tableau.grow_untils .nextAndPending f).2 (hsize ▸ hq) (hsize ▸ hr)
      hasked
  exact ⟨Tableau.grow_done hfamily hf, fine, coarse, hfine, hcoarse, ⟨h, hfolds⟩, hfolds.size_le,
    hunfolds'.sets.trans hunfolds.sets.symm⟩

/-- The automata of `p U q`. -/
theorem coarse_automaton_is_quotient_until :
    ∃ fine coarse, pUntilQ.toAutomaton .identical = .ok fine
      ∧ pUntilQ.toAutomaton .nextAndPending = .ok coarse ∧ ∃ h, fine.Folds coarse h := by
  have hp : Session.Reached (⟨[.prop 0 "p"], 1, []⟩ : Session String) :=
    .call (.prop "p") .start fun f hf => absurd hf List.not_mem_nil
  have hq : Session.Reached (⟨[.prop 1 "q", .prop 0 "p"], 2, []⟩ : Session String) :=
    .call (.prop "q") hp fun f hf => absurd hf List.not_mem_nil
  have huntil : Session.Reached (⟨[pUntilQ, .prop 1 "q", .prop 0 "p"], 3, []⟩ : Session String) :=
    .call (.binary .strongUntil (.prop 0 "p") (.prop 1 "q")) hq fun f hf => by
      rcases List.mem_pair.1 hf with rfl | rfl
      · exact List.mem_cons_of_mem _ List.mem_cons_self
      · exact List.mem_cons_self
  obtain ⟨-, fine, coarse, hfine, hcoarse, hfolds, -⟩ :=
    coarse_automaton_is_quotient huntil List.mem_cons_self
  exact ⟨fine, coarse, hfine, hcoarse, hfolds⟩

example : (pUntilQ.toAutomaton .identical).toOption.map (·.size) = some 4
    ∧ (pUntilQ.toAutomaton .nextAndPending).toOption.map (·.size) = some 2 := by
  decide +kernel

end Formula
end LinearTime
