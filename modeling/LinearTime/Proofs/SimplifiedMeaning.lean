/-
  LinearTime.Proofs.SimplifiedMeaning — simplification preserves meaning.

  A rule is *valid* if its sides have the same truth value on every lasso word,
  whatever formulas the placeholders stand for.  Since what is left of a lasso
  word is a lasso word, a valid rule may be applied at any position, so inside
  any formula; a pass with valid rules gives a formula with the same meaning.

  Main results:
    * `Rule.Valid` — validity over formulas with given atoms.
    * `kept_sameMeaning` — passes with valid rules keep the meaning.
    * `simplify_holds` — so does simplification.
    * `standardLaws_sound` — both sides of every built-in law are true at the
      same positions of every word.
    * `standard_valid` — the built-in rules are valid.
    * `simplification_preserves_models` — both together, on lasso words.
-/

import LinearTime.Proofs.Histories
import LinearTime.Proofs.LassoTruth
import LinearTime.Rules.Standard

namespace LinearTime

variable {α : Type}

/-! ## §1. Valid rules -/

/-- The truth of a template whose placeholders stand for formulas. -/
def Formula.HoldsUnder [BEq α] (σ : String → Formula α) (w : Lasso α) (p : Formula String)
    (i : Nat) : Prop :=
  p.Holds (fun n name => (σ name).Holds w.letter n) i

/-- Both sides have the same truth value on every lasso word, whatever the
    placeholders stand for. -/
def Rule.Valid (α : Type) [BEq α] (rule : Rule) : Prop :=
  ∀ (σ : String → Formula α) (w : Lasso α),
    rule.pattern.HoldsUnder σ w 0 ↔ rule.replacement.HoldsUnder σ w 0

/-- Truth at the same positions of the same lasso words. -/
def Formula.SameMeaning [BEq α] (f g : Formula α) : Prop :=
  ∀ (w : Lasso α) (i : Nat), g.Holds w.letter i ↔ f.Holds w.letter i

variable [BEq α]

/-- A valid rule is valid at every position. -/
theorem Rule.Valid.holdsUnder {rule : Rule} (h : rule.Valid α) (σ : String → Formula α)
    (w : Lasso α) (i : Nat) :
    rule.pattern.HoldsUnder σ w i ↔ rule.replacement.HoldsUnder σ w i := by
  obtain ⟨u, hu⟩ := w.exists_suffix_holds i
  have hrest (p : Formula String) : p.HoldsUnder σ w i ↔ p.HoldsUnder σ u 0 := by
    unfold Formula.HoldsUnder
    have hatoms : (fun k name => (σ name).Holds w.letter (k + i))
        = fun k name => (σ name).Holds u.letter k := by
      funext k name
      rw [Formula.holds_add, funext hu]
    have hadd := p.holds_add (fun n name => (σ name).Holds w.letter n) 0 i
    rw [Nat.zero_add] at hadd
    rw [hadd, hatoms]
  rw [hrest, hrest, h σ u]

/-- Applying a valid rule keeps the meaning. -/
theorem Rule.Rewrites.sameMeaning {rule : Rule} (h : rule.Valid α) {f g : Formula α}
    (hfg : rule.Rewrites f g) : f.SameMeaning g := by
  intro w i
  obtain ⟨b, hmatches, hfilled⟩ := hfg
  have hgives : Bindings.Gives b w.letter fun n name => (b.given name).Holds w.letter n := by
    intro name k hk n
    show (b.given name).Holds w.letter n ↔ _
    rw [Bindings.given_of_lookup hk]
  rw [hfilled.holds hgives, hmatches.holds hgives]
  exact (h.holdsUnder b.given w i).symm

/-- Passes with valid rules keep the meaning. -/
theorem Rule.kept_sameMeaning [EquivBEq α] {rules : List Rule}
    (h : ∀ rule ∈ rules, rule.Valid α) :
    Rule.Kept (α := α) Session.Canonical rules Formula.SameMeaning where
  refl _ _ _ := Iff.rfl
  trans hfg hgh w i := (hgh w i).trans (hfg w i)
  rewrites rule hr _ _ hfg := hfg.sameMeaning (h rule hr)
  next hs _ _ _ _ hf' hff' := by
    refine (Build.next_leads hs hf').mono ?_
    rintro g t - ⟨hg, id, rfl⟩
    exact ⟨hg, fun w i => hff' w (i + 1)⟩
  binary hs _ op _ _ _ _ _ hl' hr' hl hr := by
    refine (Build.binary_leads hs op hl' hr').mono ?_
    rintro g t - ⟨hg, made⟩
    exact ⟨hg, fun w i => (made.holds w.letter i).trans (op.holds_congr (hl w) (hr w))⟩

/-! ## §2. Simplification -/

/-- `g` stands for `f`, or for its negation. -/
def Formula.StandsFor (negated : Bool) (f g : Formula α) : Prop :=
  ∀ (w : Lasso α) (i : Nat), g.Holds w.letter i ↔ (f.Holds w.letter i ↔ negated = false)

/-- Whatever the number of passes, what they settle on has the same meaning. -/
theorem Rule.settle?_holds [EquivBEq α] {rules : List Rule} (h : ∀ rule ∈ rules, rule.Valid α)
    {s : Session α} (hs : s.Canonical) {f : Formula α} (hf : f ∈ s.interned) (passes : Nat) :
    Build.Leads Session.Canonical (settle? rules passes false f) s fun r t =>
      ∀ g, r = some g → g ∈ t.interned ∧ f.SameMeaning g := by
  have hpasses := settle?_leads (kept_sameMeaning h) (N := Formula.StandsFor)
    (fun f g k hfg hneg w i => by
      rw [hneg.holds, hfg w i]
      simp)
    (fun negated f g k n hfg hneg hkn w i => by
      rw [hkn w i, hneg.holds, hfg w i]
      cases negated <;> simp)
    passes false hs hf
  refine hpasses.mono fun r t _ hr g hg => ⟨(hr g hg).1, fun w i => ?_⟩
  rw [(hr g hg).2 w i]
  simp

/-- Simplification with valid rules keeps the meaning. -/
theorem RuleTable.simplify_holds [EquivBEq α] {table : RuleTable}
    (h : ∀ rule ∈ table.rules, rule.Valid α) {s : Session α} (hs : s.Canonical)
    {f : Formula α} (hf : f ∈ s.interned) :
    Build.Leads Session.Canonical (table.simplify f) s fun g t =>
      g ∈ t.interned ∧ f.SameMeaning g :=
  table.simplify_leads hs hf (fun _ _ => Iff.rfl) (Rule.settle?_holds h hs hf _)

/-! ## §3. The built-in laws -/

section Laws

variable {P Q R : Nat → Prop} {i : Nat}

theorem until_self : Until P P i ↔ P i := by
  rw [until_iff]
  constructor
  · rintro (h | ⟨h, -⟩)
    · exact h
    · exact h
  · exact .inl

theorem until_false : Until P (fun _ => False) i ↔ False := by
  unfold Until
  simp

theorem false_until : Until (fun _ => False) P i ↔ P i := by
  rw [until_iff]
  simp

theorem until_true : Until P (fun _ => True) i ↔ True := by
  rw [until_iff]
  simp

/-- What holds of until holds, negated, of release. -/
theorem release_iff_not_until :
    Release P Q i ↔ ¬ Until (fun k => ¬ P k) (fun k => ¬ Q k) i := by
  rw [not_until]
  simp only [not_not]

theorem release_self : Release P P i ↔ P i := by
  rw [release_iff_not_until, until_self, not_not]

theorem release_true : Release P (fun _ => True) i ↔ True := by
  rw [release_iff]
  unfold Release
  simp

theorem true_release : Release (fun _ => True) P i ↔ P i := by
  rw [release_iff]
  simp

theorem release_false : Release P (fun _ => False) i ↔ False := by
  rw [release_iff]
  simp

/-- Until in both left operands. -/
theorem and_until : Until P Q i ∧ Until R Q i ↔ Until (fun k => P k ∧ R k) Q i := by
  constructor
  · rintro ⟨⟨j, hj, hQ, hP⟩, ⟨k, hk, hQ', hR⟩⟩
    rcases Nat.le_total j k with hjk | hkj
    · exact ⟨j, hj, hQ, fun m hm hmj => ⟨hP m hm hmj, hR m hm (by omega)⟩⟩
    · exact ⟨k, hk, hQ', fun m hm hmk => ⟨hP m hm (by omega), hR m hm hmk⟩⟩
  · rintro ⟨j, hj, hQ, hPR⟩
    exact ⟨⟨j, hj, hQ, fun m hm hmj => (hPR m hm hmj).1⟩,
      ⟨j, hj, hQ, fun m hm hmj => (hPR m hm hmj).2⟩⟩

/-- Until in either right operand. -/
theorem or_until : Until P Q i ∨ Until P R i ↔ Until P (fun k => Q k ∨ R k) i := by
  constructor
  · rintro (⟨j, hj, hQ, hP⟩ | ⟨j, hj, hR, hP⟩)
    · exact ⟨j, hj, .inl hQ, hP⟩
    · exact ⟨j, hj, .inr hR, hP⟩
  · rintro ⟨j, hj, hQ | hR, hP⟩
    · exact .inl ⟨j, hj, hQ, hP⟩
    · exact .inr ⟨j, hj, hR, hP⟩

/-- A disjunction of releases of the same formula is one release, by the disjunction. -/
theorem or_release : Release P Q i ∨ Release R Q i ↔ Release (fun k => P k ∨ R k) Q i := by
  rw [release_iff_not_until, release_iff_not_until, release_iff_not_until, ← not_and_or, and_until]
  simp only [not_or]

/-- A conjunction of releases by the same formula is one release, of the conjunction. -/
theorem and_release : Release P Q i ∧ Release P R i ↔ Release P (fun k => Q k ∧ R k) i := by
  rw [release_iff_not_until, release_iff_not_until, release_iff_not_until, ← not_or, or_until]
  simp only [not_and_or]

/-- Until a position from which on `Q` comes sooner or later. -/
theorem until_eventually :
    Until P (fun k => ∃ j, k ≤ j ∧ Q j) i ↔ ∃ j, i ≤ j ∧ Q j := by
  constructor
  · rintro ⟨j, hj, ⟨k, hk, hQ⟩, -⟩
    exact ⟨k, by omega, hQ⟩
  · intro h
    exact until_iff.2 (.inl h)

/-- What may never stop holding holds always, released or not. -/
theorem release_always :
    Release P (fun k => ∀ j, k ≤ j → Q j) i ↔ ∀ j, i ≤ j → Q j := by
  constructor
  · intro h
    exact (release_iff.1 h).1
  · intro h j hj
    exact .inl fun k hk => h k (by omega)

/-- Always eventually always is eventually always. -/
theorem always_eventually_always :
    (∀ j, i ≤ j → ∃ k, j ≤ k ∧ ∀ m, k ≤ m → P m) ↔ ∃ k, i ≤ k ∧ ∀ m, k ≤ m → P m := by
  constructor
  · intro h
    exact h i (le_refl i)
  · rintro ⟨k, hk, hP⟩ j hj
    exact ⟨max j k, by omega, fun m hm => hP m (by omega)⟩

/-- Eventually always eventually is always eventually. -/
theorem eventually_always_eventually :
    (∃ j, i ≤ j ∧ ∀ k, j ≤ k → ∃ m, k ≤ m ∧ P m) ↔ ∀ k, i ≤ k → ∃ m, k ≤ m ∧ P m := by
  constructor
  · rintro ⟨j, hj, h⟩ k hk
    obtain ⟨m, hm, hP⟩ := h (max j k) (by omega)
    exact ⟨m, by omega, hP⟩
  · intro h
    exact ⟨i, le_refl i, h⟩

/-- One of two formulas holds infinitely often just when their disjunction does. -/
theorem always_eventually_or :
    ((∀ j, i ≤ j → ∃ k, j ≤ k ∧ P k) ∨ ∀ j, i ≤ j → ∃ k, j ≤ k ∧ Q k)
      ↔ ∀ j, i ≤ j → ∃ k, j ≤ k ∧ (P k ∨ Q k) := by
  constructor
  · rintro (h | h) j hj
    · obtain ⟨k, hk, hP⟩ := h j hj
      exact ⟨k, hk, .inl hP⟩
    · obtain ⟨k, hk, hQ⟩ := h j hj
      exact ⟨k, hk, .inr hQ⟩
  · intro h
    by_contra hn
    push Not at hn
    -- behind the last `P` and the last `Q` nothing is left
    obtain ⟨⟨j, hj, hP⟩, k, hk, hQ⟩ := hn
    obtain ⟨m, hm, hPm | hQm⟩ := h (max j k) (by omega)
    · exact hP m (by omega) hPm
    · exact hQ m (by omega) hQm

/-- Two formulas hold together from some point on just when each does. -/
theorem eventually_always_and :
    ((∃ j, i ≤ j ∧ ∀ k, j ≤ k → P k) ∧ ∃ j, i ≤ j ∧ ∀ k, j ≤ k → Q k)
      ↔ ∃ j, i ≤ j ∧ ∀ k, j ≤ k → P k ∧ Q k := by
  constructor
  · rintro ⟨⟨j, hj, hP⟩, k, hk, hQ⟩
    exact ⟨max j k, by omega, fun m hm => ⟨hP m (by omega), hQ m (by omega)⟩⟩
  · rintro ⟨j, hj, h⟩
    exact ⟨⟨j, hj, fun k hk => (h k hk).1⟩, j, hj, fun k hk => (h k hk).2⟩

end Laws

/-- Both sides of every built-in law are true at the same positions. -/
theorem standardLaws_sound : ∀ law ∈ RuleTable.standardLaws, ∀ (v : Nat → String → Prop)
    (i : Nat), law.1.Holds v i ↔ law.2.Holds v i := by
  unfold RuleTable.standardLaws
  simp only [List.forall_mem_cons, Expression.Holds, BinaryOp.Holds]
  refine ⟨?_, ?_, ?_, ?_, ?_, ?_, ?_, ?_, ?_, ?_, ?_, ?_, ?_, ?_, ?_, ?_, ?_, ?_, ?_, ?_, ?_, ?_,
    ?_, ?_, ?_, ?_, ?_, ?_, ?_, ?_, ?_, ?_, ?_, ?_, ?_, ?_, ?_⟩
  -- idempotence and constants
  · exact fun v i => and_self_iff
  · exact fun v i => or_self_iff
  · exact fun v i => and_iff_left trivial
  · exact fun v i => and_iff_right_of_imp False.elim
  · exact fun v i => or_iff_right_of_imp fun _ => trivial
  · exact fun v i => or_iff_left_of_imp False.elim
  · exact fun v i => until_self
  · exact fun v i => release_self
  · exact fun v i => until_false
  · exact fun v i => release_true
  · exact fun v i => false_until
  · exact fun v i => true_release
  · exact fun v i => until_true
  · exact fun v i => release_false
  · exact fun v i => trivial
  · exact fun v i => trivial
  -- temporal operators over boolean ones
  · exact fun v i => (forall₂_and).symm
  · intro v i
    rw [← exists_or]
    simp only [and_or_left]
  · exact fun v i => and_until
  · exact fun v i => or_until
  · exact fun v i => or_release
  · exact fun v i => and_release
  · exact fun v i => trivial
  · exact fun v i => trivial
  · exact fun v i => (until_add (P := fun k => v k "p") (Q := fun k => v k "q") 1).symm
  · exact fun v i => (release_add (P := fun k => v k "p") (Q := fun k => v k "q") 1).symm
  -- nested temporal operators
  · exact fun v i => until_eventually
  · exact fun v i => release_always
  · exact fun v i => always_eventually_always
  · exact fun v i => eventually_always_eventually
  · exact fun v i => always_eventually_or
  · exact fun v i => eventually_always_and
  -- absorption and contradictions
  · exact fun v i => and_iff_left_of_imp .inl
  · exact fun v i => or_iff_left_of_imp And.left
  · exact fun v i => iff_false_intro and_not_self
  · exact fun v i => iff_true_intro (Classical.em _)
  · exact fun law h => absurd h List.not_mem_nil

/-- The sides of a rule are built from the sides of a law. -/
def Rule.BuiltFrom (rule : Rule) (law : Expression String × Expression String) : Prop :=
  law.1.Built rule.pattern ∧ law.2.Built rule.replacement

/-- Every rule built from a list of laws comes from one of them. -/
theorem buildLaws_leads (laws : List (Expression String × Expression String))
    {s : Session String} (h : s.Canonical) :
    Build.Leads Session.Canonical (RuleTable.buildLaws laws) s fun rules _ =>
      ∀ rule ∈ rules, ∃ law ∈ laws, rule.BuiltFrom law := by
  induction laws generalizing s with
  | nil => exact .pure h fun rule hr => absurd hr List.not_mem_nil
  | cons law laws ih =>
    obtain ⟨left, right⟩ := law
    refine (left.build_leads h).bind ?_
    rintro p t ht - ⟨-, hp⟩
    refine (right.build_leads ht).bind ?_
    rintro q u hu - ⟨-, hq⟩
    refine (ih hu).bind fun rules w hw _ hrules => .pure hw fun rule hr => ?_
    rcases List.mem_cons.1 hr with rfl | hr
    · exact ⟨(left, right), List.mem_cons_self, hp, hq⟩
    · obtain ⟨law, hlaw, hbuilt⟩ := hrules rule hr
      exact ⟨law, List.mem_cons_of_mem _ hlaw, hbuilt⟩

/-- The built-in rules come from the built-in laws, in whatever session they are
    built. -/
theorem standardRules_leads {s : Session String} (h : s.Canonical) :
    Build.Leads Session.Canonical RuleTable.standardRules s fun rules _ =>
      ∀ rule ∈ rules, ∃ law ∈ RuleTable.standardLaws, rule.BuiltFrom law := by
  -- Placeholders and constants are built first, only for their numbers.
  have hdiscard {β : Type} {job : Build String β} {P : β → Session String → Prop}
      {s : Session String} (h : Build.Leads Session.Canonical job s P) :
      Build.Leads Session.Canonical (discard job) s fun _ _ => True :=
    h.bind fun _ t ht _ _ => .pure ht trivial
  have hrun : RuleTable.standardRules = (do
      discard (Build.prop "p")
      discard (Build.prop "q")
      discard (Build.prop "r")
      discard Build.tt
      discard Build.ff
      RuleTable.buildLaws RuleTable.standardLaws) := by
    unfold RuleTable.standardRules
    simp only [List.forIn_cons, List.forIn_nil, bind_assoc, pure_bind]
  rw [hrun]
  refine (hdiscard (Build.prop_leads h "p")).bind fun _ s hs _ _ => ?_
  refine (hdiscard (Build.prop_leads hs "q")).bind fun _ s hs _ _ => ?_
  refine (hdiscard (Build.prop_leads hs "r")).bind fun _ s hs _ _ => ?_
  refine (hdiscard (Build.tt_leads hs)).bind fun _ s hs _ _ => ?_
  refine (hdiscard (Build.ff_leads hs)).bind fun _ s hs _ _ => ?_
  exact buildLaws_leads RuleTable.standardLaws hs

/-- The built-in rules come from the built-in laws. -/
theorem standard_builtFrom (stamp : Nat) :
    ∀ rule ∈ (RuleTable.standard stamp).1.rules,
      ∃ law ∈ RuleTable.standardLaws, rule.BuiltFrom law := by
  unfold RuleTable.standard
  have hresult := (standardRules_leads (Session.canonical_of_interned_nil
    (s := ({} : Session String)) rfl)).result
  -- the rules are not to be evaluated
  revert hresult
  generalize RuleTable.standardRules = job
  exact fun hresult => hresult

/-- The built-in rules are valid, over whatever atoms. -/
theorem standard_valid (stamp : Nat) :
    ∀ rule ∈ (RuleTable.standard stamp).1.rules, rule.Valid α := by
  intro rule hrule σ w
  obtain ⟨law, hlaw, hpattern, hreplacement⟩ := standard_builtFrom stamp rule hrule
  have hrespects (v : Nat → String → Prop) : Respects v := by
    intro n a b hab
    rw [eq_of_beq hab]
  unfold Formula.HoldsUnder
  rw [hpattern.holds (hrespects _), hreplacement.holds (hrespects _)]
  exact standardLaws_sound law hlaw _ 0

/-! ## §4. Models -/

/-- Simplification preserves models: the built-in rules are valid, and with any
    table of valid rules a formula that simplification gives, or that passes
    settle on, has the models of the formula that was simplified. -/
theorem simplification_preserves_models [EquivBEq α] :
    (∀ stamp, ∀ rule ∈ (RuleTable.standard stamp).1.rules, rule.Valid α)
      ∧ ∀ table : RuleTable, (∀ rule ∈ table.rules, rule.Valid α) →
          ∀ s : Session α, s.Reached → ∀ f ∈ s.interned, ∀ w : Lasso α,
            w.satisfies (table.simplify f s).1 = w.satisfies f
              ∧ ∀ passes g, (Rule.settle? table.rules passes false f s).1 = some g →
                  w.satisfies g = w.satisfies f := by
  refine ⟨standard_valid, fun table hvalid s hs f hf w => ?_⟩
  -- equal meaning is equal truth at the first position
  have hmodels {t : Session α} (ht : t.Canonical) {g : Formula α} (hg : g ∈ t.interned)
      (hmeaning : f.SameMeaning g) : w.satisfies g = w.satisfies f := by
    rw [Bool.eq_iff_iff, w.satisfies_iff (ht.coherent hg),
      w.satisfies_iff (hs.canonical.coherent hf)]
    exact hmeaning w 0
  constructor
  · have hleads := table.simplify_holds hvalid hs.canonical hf
    exact hmodels hleads.sound hleads.result.1 hleads.result.2
  · intro passes g hg
    have hleads := Rule.settle?_holds hvalid hs.canonical hf passes
    have hresult := hleads.result g hg
    exact hmodels hleads.sound hresult.1 hresult.2

/-- The conjunction of a proposition with itself, on a word that always makes the
    proposition true. -/
theorem simplification_preserves_models_conj_self :
    (⟨[], [[("p", true)]], List.cons_ne_nil _ _⟩ : Lasso String).satisfies
      ((RuleTable.standard 0).1.simplify (.binary 1 .conj (.prop 0 "p") (.prop 0 "p"))
        { interned := [.binary 1 .conj (.prop 0 "p") (.prop 0 "p"), .prop 0 "p"],
          nextId := 2 }).1 = true := by
  have hprop : Session.Reached (Build.Call.run (.prop "p") {}).2 :=
    .call (.prop "p") .start fun f hf => absurd hf List.not_mem_nil
  have hconj : Session.Reached
      (Build.Call.run (.binary .conj (.prop 0 "p") (.prop 0 "p"))
        (Build.Call.run (.prop "p") ({} : Session String)).2).2 :=
    .call _ hprop fun f hf => by
      rcases List.mem_cons.1 hf with rfl | hf
      · exact List.mem_cons_self
      · rw [List.mem_singleton.1 hf]
        exact List.mem_cons_self
  -- the result is the proposition itself, which the word satisfies
  have hmodels := (simplification_preserves_models.2 (RuleTable.standard 0).1 (standard_valid 0) _
    hconj (.binary 1 .conj (.prop 0 "p") (.prop 0 "p")) List.mem_cons_self
    ⟨[], [[("p", true)]], List.cons_ne_nil _ _⟩).1
  exact hmodels.trans (by decide)

end LinearTime
