/-
  LinearTime.Proofs.ExpandedAutomata — what every expanded automaton is like.

  Formulas are always expanded: the tableau is fully grown at last, and no guard
  is refused.  Of the automaton that results we show what its readers rely on.

      guards      some letter enables each, so no atom stands there both ways
      marks       they name untils, and without strong untils at hand none of
                  these is pending
      states      each node but the first was entered from a node before it, and
                  a transition does for the entry, from the one's class to the
                  other's

  Main results:
    * `Automaton.Regular` — the properties.
    * `Traced.reachable` — every class is reached from the first one.
    * `Formula.expands_to_regular` — the automata of the formulas of a session.
-/

import LinearTime.Proofs.AutomatonLanguage
import LinearTime.Proofs.Histories
import LinearTime.Proofs.NodeLabels

namespace LinearTime

variable {α : Type}

/-! ## §1. Regular automata -/

/-- Some transition leads from `p` to `q`. -/
def Automaton.Edge (a : Automaton α) (p q : Nat) : Prop := ∃ t ∈ a.transitionsOf p, t.target = q

/-- States are numbered by position, transitions lead to states, and transitions
    lead from the initial state to every state.  No guard has an atom and the
    negation of an equal one.  Marks name acceptance sets.  No two transitions of a
    state are equal.  A safety transition is of all acceptance sets. -/
structure Automaton.Regular [BEq α] (a : Automaton α) : Prop where
  ids : a.states.map (·.id) = List.range a.size
  target_lt : ∀ q, ∀ t ∈ a.transitionsOf q, t.target < a.size
  reachable : ∀ q < a.size, Relation.ReflTransGen a.Edge a.initial q
  consistent : ∀ q, ∀ t ∈ a.transitionsOf q, ∀ b c, .positive b ∈ t.guard.literals →
    .negative c ∈ t.guard.literals → (b == c) = false
  mark_lt : ∀ q, ∀ t ∈ a.transitionsOf q, ∀ k ∈ t.accepting, k < a.acceptanceSets
  distinct : ∀ q, (a.transitionsOf q).Pairwise fun t u => (t == u) = false
  safety : ∀ q, ∀ t ∈ a.transitionsOf q, t.safety = true →
    ∀ k < a.acceptanceSets, k ∈ t.accepting

/-! ## §2. Guards -/

/-- A guard that some letter enables has no atom together with its negation. -/
theorem Guard.consistent_of_enabled [BEq α] [EquivBEq α] {g : Guard α} {letter : Valuation α}
    (h : g.enabled letter = true) {b c : α} (hb : .positive b ∈ g.literals)
    (hc : .negative c ∈ g.literals) : (b == c) = false := by
  have hall := List.all_eq_true.1 h
  have htrue : letter.value b = true := hall _ hb
  have hfalse : letter.value c = false := by simpa [Literal.holds] using hall _ hc
  rw [Bool.eq_false_iff]
  intro hbc
  rw [Valuation.value_congr hbc, hfalse] at htrue
  cases htrue

/-! ## §3. Marks -/

namespace Tableau

variable {untils : List (Formula α)} {now later : FormulaSet α} {k : Nat}

theorem lt_of_mem_acceptance {p : MarkSet} (h : k ∈ acceptance untils p) :
    k < acceptanceSets untils := by
  cases untils with
  | nil => exact (MarkSet.mem_below.1 h).1
  | cons u untils => exact lt_of_lt_of_le (MarkSet.mem_complement.1 h).1 (Nat.le_max_left _ _)

/-- Only what is among the formulas of now can be pending. -/
theorem contains_of_isPending {u : Formula α} (h : isPending now later u = true) :
    now.contains u = true := by
  cases u with
  | binary id op l r => exact (Bool.and_eq_true_iff.1 h).1
  | tt | ff | prop | negProp | next => cases h

/-- With no strong until at hand the transition is of all acceptance sets. -/
theorem mem_acceptance_of_isSafety {U : List (Formula α)} (hU : Formula.Family U)
    (hnow : now.Within U) (huntils : ∀ u ∈ untils, u ∈ U ∧ u.isStrongUntil = true)
    (hsafe : isSafety untils now later = true) (hk : k < acceptanceSets untils) :
    k ∈ acceptance untils (pending untils now later) := by
  rcases eq_nil_or_exists_until hk with rfl | ⟨u, hu⟩
  · exact mem_acceptance_nil hk _
  · obtain ⟨huU, huntil⟩ := huntils u (List.mem_of_getElem? hu)
    rw [mem_acceptance hu, Bool.eq_false_iff]
    intro hpending
    have hmem : u ∈ now :=
      (OrderedSet.contains_iff_mem hU.injOn hnow huU).1 (contains_of_isPending hpending)
    -- then a strong until is among the formulas of now
    have hany : (now.toList ++ later.toList).any (·.isStrongUntil) = true :=
      List.any_eq_true.2 ⟨u, List.mem_append_left _ hmem, huntil⟩
    have hne : untils.isEmpty = false := by
      cases untils with
      | nil => cases hu
      | cons u untils => rfl
    unfold isSafety at hsafe
    rw [hne, hany] at hsafe
    cases hsafe

end Tableau

namespace Automaton.Unfolds

variable [BEq α] {a : Automaton α} {U untils : List (Formula α)} {start : FormulaSet α}
  {asked : Nat → FormulaSet α} {q k : Nat} {t : Transition α}

/-- The marks of a transition name acceptance sets. -/
theorem mark_lt (h : a.Unfolds U untils start asked) (ht : t ∈ a.transitionsOf q)
    (hk : k ∈ t.accepting) : k < a.acceptanceSets := by
  obtain ⟨now, -, hcompletes⟩ := h.sound q t ht
  rw [hcompletes.accepting] at hk
  rw [h.sets]
  exact Tableau.lt_of_mem_acceptance hk

/-- A safety transition is of all acceptance sets. -/
theorem mem_of_safety (h : a.Unfolds U untils start asked) (hU : Formula.Family U)
    (huntils : ∀ u ∈ untils, u ∈ U ∧ u.isStrongUntil = true) (ht : t ∈ a.transitionsOf q)
    (hsafe : t.safety = true) (hk : k < a.acceptanceSets) : k ∈ t.accepting := by
  obtain ⟨now, hc, hcompletes⟩ := h.sound q t ht
  have hlabels : Labels U (asked q) now (asked t.target) :=
    hc.labels hU (h.within q (Automaton.transitionsOf_lt ht))
  rw [hcompletes.safety] at hsafe
  rw [h.sets] at hk
  rw [hcompletes.accepting]
  exact Tableau.mem_acceptance_of_isSafety hU hlabels.now_within huntils hsafe hk

end Automaton.Unfolds

/-! ## §4. Transitions that differ -/

section Distinct

variable [BEq α] [EquivBEq α]

/-- No two transitions of the state are equal. -/
def State.Distinct (s : State α) : Prop := s.transitions.Pairwise fun t u => (t == u) = false

theorem State.Distinct.add {s : State α} (h : s.Distinct) (t : Transition α) :
    (s.add t).Distinct := by
  unfold State.add
  split
  · exact h
  next hnew =>
    refine List.pairwise_append.2 ⟨h, List.pairwise_singleton _ _, fun u hu t' ht' => ?_⟩
    rw [List.mem_singleton.1 ht', Bool.eq_false_iff]
    intro heq
    -- an equal transition that is there would have kept `t` out
    exact hnew (List.contains_iff_exists_mem_beq.2 ⟨u, hu, BEq.symm heq⟩)

omit [EquivBEq α] in
theorem Automaton.pairwise_transitionsOf {a : Automaton α} (h : ∀ s ∈ a.states, s.Distinct)
    (q : Nat) : (a.transitionsOf q).Pairwise fun t u => (t == u) = false := by
  unfold transitionsOf
  cases hs : a.states[q]? with
  | none => exact List.Pairwise.nil
  | some s => exact h s (List.mem_of_getElem? hs)

theorem Tableau.addAll_distinct (links : List (Nat × Transition α)) :
    ∀ states : List (State α), (∀ s ∈ states, s.Distinct) →
      ∀ s ∈ addAll states links, s.Distinct := by
  induction links with
  | nil => exact fun states h => h
  | cons link links ih =>
    intro states h
    refine ih (states.modify link.1 (·.add link.2)) fun s hs => ?_
    obtain ⟨i, hi⟩ := List.mem_iff_getElem?.1 hs
    rcases getElem?_modify_some hi with hi | ⟨s', hi', rfl⟩
    · exact h s (List.mem_of_getElem? hi)
    · exact (h s' (List.mem_of_getElem? hi')).add link.2

omit [EquivBEq α] in
theorem Tableau.bare_distinct (t : Tableau α) : ∀ s ∈ t.bare, s.Distinct := by
  intro s hs
  obtain ⟨i, hi⟩ := List.mem_iff_getElem?.1 hs
  unfold bare at hi
  rw [List.getElem?_mapIdx] at hi
  obtain ⟨r, -, rfl⟩ := Option.map_eq_some_iff.1 hi
  exact List.Pairwise.nil

end Distinct

/-! ## §5. States that are reached -/

namespace Tableau

variable [BEq α] {t : Tableau α} {root : Formula α} {a : Automaton α} {i k : Nat}

/-- In the automaton that has the transitions of the tableau, the class of each node is
    reached from the initial state. -/
theorem Traced.reachable (h : t.Traced root) (ha : a.states = addAll t.bare t.links)
    (hk : t.classes.ofNode[i]? = some k) : Relation.ReflTransGen a.Edge a.initial k := by
  have hcovers := classes_covers t
  -- by induction on the number of the node, for origins have smaller ones
  induction i using Nat.strongRecOn generalizing k with
  | ind i ih =>
    have hlength : i < t.nodes.length := by
      rw [← hcovers.length]
      exact (List.getElem?_eq_some_iff.1 hk).1
    have hn : t.nodes[i]? = some t.nodes[i] := List.getElem?_eq_getElem hlength
    by_cases hi : i = 0
    · subst hi
      have hzero := ofNode_zero (List.ne_nil_of_mem (List.mem_of_getElem? hn))
      obtain rfl : 0 = k := Option.some.inj (hzero.symm.trans hk)
      exact .refl
    · obtain ⟨now, o, hlt, e, he, -, ho⟩ := h.earlier i _ hn hi
      have hm : t.nodes[o]? = some t.nodes[o] := List.getElem?_eq_getElem (hlt.trans hlength)
      obtain ⟨k', hk', hclass⟩ := exists_class (later?_of_getElem? hm)
      -- the entry is linked from the class of its origin
      have hlink : (k', t.transitionOf k t.nodes[i] e) ∈ t.links :=
        mem_links.2 ⟨i, k, _, hn, hk, e, he, o, ho, hclass.symm, rfl⟩
      obtain ⟨r, -, -, hr, -⟩ := hcovers.same o k' hk'
      have hlt' : k' < t.bare.length := by
        rw [length_bare]
        exact (List.getElem?_eq_some_iff.1 hr).1
      -- an equal transition may do for the link, but it has the same target
      obtain ⟨tr, htr, hdoes⟩ := (addAll_adds t.links t.bare).complete k' _ hlink hlt'
      rw [← ha] at htr
      have htarget : tr.target = k := by
        rcases hdoes with rfl | heq
        · rfl
        · exact (Transition.beq_iff.1 heq).1.symm
      exact (ih o hlt hk').tail ⟨tr, htr, htarget⟩

end Tableau

/-! ## §6. The automata of a session -/

namespace Formula

variable [BEq α] [EquivBEq α] {s : Session α} {f : Formula α}

/-- Every formula of a session can be expanded, under both ways of merging nodes: the
    tableau is fully grown at last, no guard is refused, and the automaton is
    regular. -/
theorem expands_to_regular (hs : s.Reached) (hf : f ∈ s.interned) (merge : Merge) :
    (Tableau.grow merge f).work = []
      ∧ ∃ a, f.toAutomaton merge = .ok a ∧ a.Regular := by
  have hfamily : Family s.interned := hs.canonical.family
  have hU : Family f.subformulas := hfamily.subformulas hf
  have hself : f ∈ f.subformulas := self_mem_subformulas hfamily hf
  have hinterned : ∀ g ∈ f.subformulas, g ∈ s.interned :=
    fun g hg => mem_of_mem_subformulas hfamily hf hg
  have huntils : ∀ u ∈ Tableau.untilsOf f, u ∈ f.subformulas ∧ u.isStrongUntil = true :=
    fun u hu => List.mem_filter.1 hu
  have hsound : (Tableau.grow merge f).Sound f.subformulas := .grow hU hself merge
  have htraced : (Tableau.grow merge f).Traced f := Tableau.grow_traced hU hself merge
  -- The automaton of the finished tableau unfolds what is asked for.
  obtain ⟨a, ha, hsize, hunfolds⟩ := exists_unfolds hfamily hf merge
  refine ⟨Tableau.grow_done hfamily hf merge, a, ha, ?_⟩
  have hstates : a.states
      = Tableau.addAll (Tableau.grow merge f).bare (Tableau.grow merge f).links := by
    rw [← Except.ok.inj ((Tableau.toAutomaton_eq hsound.within).symm.trans ha)]
  have hdistinct : ∀ state ∈ a.states, state.Distinct := by
    rw [hstates]
    exact Tableau.addAll_distinct _ _ (Tableau.bare_distinct _)
  refine ⟨hunfolds.ids, hunfolds.wellFormed.target_lt, ?_, ?_, ?_, ?_, ?_⟩
  · intro q hq
    obtain ⟨r, hr, -⟩ := Tableau.later?_first (lt_of_lt_of_eq hq hsize)
    exact htraced.reachable hstates ((Tableau.classes_covers _).own q r hr)
  -- A label without contradiction has a letter at which its guard is enabled.
  · intro q t ht b c hb hc
    obtain ⟨letter, hletter⟩ := hunfolds.exists_letter hs.canonical hU hinterned q t ht
    exact Guard.consistent_of_enabled hletter hb hc
  · exact fun q t ht k hk => hunfolds.mark_lt ht hk
  · exact Automaton.pairwise_transitionsOf hdistinct
  · exact fun q t ht hsafe k hk => hunfolds.mem_of_safety hU huntils ht hsafe hk

/-- The expansion of `p U q`. -/
theorem expands_to_regular_until :
    let e : Expression String := .binary .strongUntil (.prop "p") (.prop "q")
    (e.build {}).1 = pUntilQ ∧ ∃ a, pUntilQ.toAutomaton .identical = .ok a ∧ a.Regular := by
  intro e
  have hs : (e.build {}).2.Reached := Session.Reached.start.build e
  have hf : pUntilQ ∈ (e.build {}).2.interned := Session.Reached.start.built_mem e
  exact ⟨rfl, (expands_to_regular hs hf .identical).2⟩

end Formula
end LinearTime
