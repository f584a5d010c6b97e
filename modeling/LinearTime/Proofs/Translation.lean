/-
  LinearTime.Proofs.Translation — automata accept the models of their formulas.

  A construction simplifies a formula with rules that keep its models and
  expands the result into an automaton that accepts just the words on which the
  result is true.

  Main results:
    * `Construction.exists_automaton` — with valid rules the automaton is there
      and recognizes the formula.
    * `Construction.automaton_accepts_models` — the same for the built-in rules,
      and neither simplification nor expansion reaches its limit.
-/

import LinearTime.Construction
import LinearTime.Proofs.AutomatonLanguage
import LinearTime.Proofs.Histories
import LinearTime.Proofs.Settling

namespace LinearTime

/-! ## §1. The words of a recognizing automaton -/

namespace Automaton.Recognizes

variable {α : Type} [BEq α] {a : Automaton α} {f g : Formula α}

theorem congr (h : a.Recognizes g) (hfg : f.SameMeaning g) : a.Recognizes f where
  wellFormed := h.wellFormed
  ids := h.ids
  sets_pos := h.sets_pos
  letters := h.letters
  words w := (h.words w).trans (hfg w 0)

/-- Just the models are accepted. -/
theorem accepts_eq (h : a.Recognizes f) (hf : f.Coherent) (w : Lasso α) :
    a.accepts w = w.satisfies f := by
  rw [Bool.eq_iff_iff, accepts_iff h.wellFormed, h.words, w.satisfies_iff hf]

end Automaton.Recognizes

namespace Construction

variable {α : Type} [BEq α] [EquivBEq α] {s : Session α} {f : Formula α}

/-- A construction with the built-in rules. -/
def builtIn (stamp : Nat) (merge : Merge) (simplify : Bool) : Construction where
  rules := (RuleTable.standard stamp).1
  merge := merge
  simplify := simplify

omit [EquivBEq α] in
theorem valid_of_table {table : RuleTable} (h : ∀ rule ∈ table.rules, rule.Valid α)
    (merge : Merge) (simplify : Bool) :
    ∀ rule ∈ (Construction.mk table merge simplify).rules.rules, rule.Valid α := h

omit [EquivBEq α] in
theorem builtIn_valid (stamp : Nat) (merge : Merge) (simplify : Bool) :
    ∀ rule ∈ (builtIn stamp merge simplify).rules.rules, rule.Valid α :=
  -- the table is not to be evaluated
  valid_of_table (standard_valid stamp) merge simplify

/-! ## §2. The automaton of a formula -/

/-- The formula that is expanded has the meaning of the formula that was given. -/
theorem prepare_leads {c : Construction} (hvalid : ∀ rule ∈ c.rules.rules, rule.Valid α)
    (hs : s.Canonical) (hf : f ∈ s.interned) :
    Build.Leads Session.Canonical (c.prepare f) s fun g t => g ∈ t.interned ∧ f.SameMeaning g := by
  unfold prepare
  split
  · exact RuleTable.simplify_holds hvalid hs hf
  · exact .pure hs ⟨hf, fun w i => Iff.rfl⟩

omit [EquivBEq α] in
theorem automaton_eq (c : Construction) (f : Formula α) (s : Session α) :
    (c.automaton f s).1 = (c.prepare f s).1.toAutomaton c.merge := by
  unfold automaton
  generalize c.prepare f = job
  rfl

/-- With valid rules the automaton recognizes the formula. -/
theorem exists_automaton {c : Construction} (hvalid : ∀ rule ∈ c.rules.rules, rule.Valid α)
    (hs : s.Canonical) (hf : f ∈ s.interned) :
    ∃ a, (c.automaton f s).1 = .ok a ∧ a.Recognizes f := by
  have hprepared := prepare_leads hvalid hs hf
  obtain ⟨hg, hmeaning⟩ := hprepared.result
  obtain ⟨a, ha, hrecognizes⟩ := Formula.exists_recognizing hprepared.sound hg c.merge
  exact ⟨a, (automaton_eq c f s).trans ha, hrecognizes.congr hmeaning⟩

/-- For every formula of a session that comes about, simplified with the built-in
    rules or not, and for both ways of merging nodes, there is an automaton, and
    it accepts just the models of the formula. Simplification settles, and the
    tableau is fully grown: neither is cut short by a limit. -/
theorem automaton_accepts_models (hs : s.Reached) (hf : f ∈ s.interned) (stamp : Nat)
    (merge : Merge) (simplify : Bool) :
    (Rule.settle? (RuleTable.standard stamp).1.rules (Rule.passLimit f) false f s).1.isSome = true
      ∧ (Tableau.grow merge ((builtIn stamp merge simplify).prepare f s).1).work = []
      ∧ ∃ a, ((builtIn stamp merge simplify).automaton f s).1 = .ok a
          ∧ ∀ w : Lasso α, a.accepts w = w.satisfies f := by
  have hvalid := builtIn_valid (α := α) stamp merge simplify
  have hprepared := prepare_leads hvalid hs.canonical hf
  obtain ⟨a, ha, hrecognizes⟩ := exists_automaton hvalid hs.canonical hf
  exact ⟨RuleTable.settles stamp hs.canonical hf,
    Tableau.grow_done hprepared.sound.family hprepared.result.1 merge,
    a, ha, hrecognizes.accepts_eq (hs.canonical.coherent hf)⟩

/-- The automaton of `p U q` accepts the word on which `p` is true at first and `q`
    from then on. -/
theorem automaton_accepts_models_until :
    ∃ a, ((builtIn 0 .identical true).automaton
        (.binary 2 .strongUntil (.prop 0 "p") (.prop 1 "q"))
        { interned := [.binary 2 .strongUntil (.prop 0 "p") (.prop 1 "q"), .prop 1 "q",
            .prop 0 "p"],
          nextId := 3 }).1 = .ok a
      ∧ a.accepts ⟨[[("p", true)]], [[("q", true)]], List.cons_ne_nil _ _⟩ = true := by
  -- the session of the formula, call by call
  have hp : Session.Reached (⟨[.prop 0 "p"], 1, []⟩ : Session String) :=
    .call (.prop "p") .start fun f hf => absurd hf List.not_mem_nil
  have hq : Session.Reached (⟨[.prop 1 "q", .prop 0 "p"], 2, []⟩ : Session String) :=
    .call (.prop "q") hp fun f hf => absurd hf List.not_mem_nil
  have huntil : Session.Reached (⟨[.binary 2 .strongUntil (.prop 0 "p") (.prop 1 "q"),
      .prop 1 "q", .prop 0 "p"], 3, []⟩ : Session String) :=
    .call (.binary .strongUntil (.prop 0 "p") (.prop 1 "q")) hq fun f hf => by
      rcases List.mem_pair.1 hf with rfl | rfl
      · exact List.mem_cons_of_mem _ List.mem_cons_self
      · exact List.mem_cons_self
  obtain ⟨-, -, a, ha, hwords⟩ :=
    automaton_accepts_models huntil List.mem_cons_self 0 .identical true
  exact ⟨a, ha, (hwords _).trans (by decide)⟩

end Construction
end LinearTime
