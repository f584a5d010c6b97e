/-
  LinearTime.Proofs.CreationOrder — results do not depend on what was built before.

  The numbers of formulas decide in which order the operands of conjunctions and
  disjunctions stand, hence which match is found, what is built from it and what
  the rules that follow see.  Two sessions in which other formulas were built
  before go different ways from there on.  But every stage determines its result
  up to likeness, once its argument is given up to likeness:

      building    by what is made of each operator
      a rule      whether it applies, as matching is complete; what it makes, as it
                  is orderly
      a pass      by induction over the formula
      all passes  as they end with the first pass that leaves the negation alike

  Main results:
    * `Expression.Built.alike` — what is built from an expression.
    * `Rule.Applied.congr`, `Rule.Passed.congr`, `Rule.SettledOn.congr` — one rule, one
      pass, all passes.
    * `simplification_order_independent` — building an expression and simplifying it, in
      any two sessions with constructor calls only.
-/

import LinearTime.Proofs.Numbering
import LinearTime.Proofs.OrderlyRules
import LinearTime.Proofs.Settling

namespace LinearTime

variable {α : Type} [BEq α] [EquivBEq α]

/-! ## §1. What is built -/

/-- The two jobs give shared formulas, one in each session, and these are alike. -/
structure Build.Alike (job job' : Build α (Formula α)) (s t : Session α) : Prop where
  leads : Leads Session.Canonical job s fun f u => f ∈ u.interned
  leads' : Leads Session.Canonical job' t fun f u => f ∈ u.interned
  alike : (job s).1.Alike (job' t).1

namespace Build

variable {s t : Session α} {f f' l l' r r' : Formula α}

/-- One job after the other, in both sessions. -/
theorem Alike.bind {job job' : Build α (Formula α)} {next next' : Formula α → Build α (Formula α)}
    (h : Alike job job' s t)
    (hnext : ∀ f f' u v, u.Canonical → v.Canonical → (∀ k ∈ s.interned, k ∈ u.interned) →
      (∀ k ∈ t.interned, k ∈ v.interned) → f ∈ u.interned → f' ∈ v.interned → f.Alike f' →
      Alike (next f) (next' f') u v) : Alike (job >>= next) (job' >>= next') s t := by
  have hn := hnext _ _ _ _ h.leads.sound h.leads'.sound h.leads.keeps h.leads'.keeps
    h.leads.result h.leads'.result h.alike
  exact ⟨h.leads.andThen hn.leads, h.leads'.andThen hn.leads', hn.alike⟩

/-- It is enough that what the jobs lead to is determined up to likeness. -/
theorem Alike.of_leads {job job' : Build α (Formula α)} {P P' : Formula α → Prop}
    (h : Leads Session.Canonical job s fun f u => f ∈ u.interned ∧ P f)
    (h' : Leads Session.Canonical job' t fun f u => f ∈ u.interned ∧ P' f)
    (halike : ∀ f f', f.Resolved → f'.Resolved → P f → P' f' → f.Alike f') :
    Alike job job' s t where
  leads := h.mono fun _ _ _ hf => hf.1
  leads' := h'.mono fun _ _ _ hf => hf.1
  alike := halike _ _ (h.sound.resolved h.result.1) (h'.sound.resolved h'.result.1)
    h.result.2 h'.result.2

theorem tt_alike (hs : s.Canonical) (ht : t.Canonical) : Alike tt tt s t := by
  refine .of_leads (tt_leads hs) (tt_leads ht) ?_
  rintro _ _ - - ⟨i, rfl⟩ ⟨j, rfl⟩
  exact .tt i j

theorem ff_alike (hs : s.Canonical) (ht : t.Canonical) : Alike ff ff s t := by
  refine .of_leads (ff_leads hs) (ff_leads ht) ?_
  rintro _ _ - - ⟨i, rfl⟩ ⟨j, rfl⟩
  exact .ff i j

theorem prop_alike (hs : s.Canonical) (ht : t.Canonical) (a : α) :
    Alike (prop a) (prop a) s t := by
  refine .of_leads (prop_leads hs a) (prop_leads ht a) ?_
  rintro _ _ - - ⟨i, b, rfl, hb⟩ ⟨j, c, rfl, hc⟩
  -- both atoms are equal to `a`
  have hba : (b == a) = true := hb.elim (fun heq => heq ▸ BEq.rfl) id
  have hca : (c == a) = true := hc.elim (fun heq => heq ▸ BEq.rfl) id
  exact .prop i j (BEq.trans hba (BEq.symm hca))

theorem next_alike (hs : s.Canonical) (ht : t.Canonical) (hf : f ∈ s.interned)
    (hf' : f' ∈ t.interned) (hff' : f.Alike f') : Alike (next f) (next f') s t := by
  refine .of_leads (next_leads hs hf) (next_leads ht hf') ?_
  rintro _ _ - - ⟨i, rfl⟩ ⟨j, rfl⟩
  exact .next i j hff'

/-- Negating alike formulas gives alike formulas. -/
theorem not_alike (hs : s.Canonical) (ht : t.Canonical) (hf : f ∈ s.interned)
    (hf' : f' ∈ t.interned) (hff' : f.Alike f') : Alike (not f) (not f') s t := by
  refine .of_leads (not_leads hs hf) (not_leads ht hf') ?_
  intro g g' hg hg' hneg hneg'
  exact hneg.congr hneg' hff' hg hg'

/-- Joining alike formulas by one operator gives alike formulas. -/
theorem binary_alike (hs : s.Canonical) (ht : t.Canonical) (op : BinaryOp) (hl : l ∈ s.interned)
    (hl' : l' ∈ t.interned) (hr : r ∈ s.interned) (hr' : r' ∈ t.interned) (hll' : l.Alike l')
    (hrr' : r.Alike r') : Alike (binary op l r) (binary op l' r') s t := by
  refine .of_leads (binary_leads hs op hl hr) (binary_leads ht op hl' hr') ?_
  intro g g' hg hg' made made'
  exact made.congr made' hg hg' hll' hrr'

end Build

/-- What is built from an expression is determined up to likeness. -/
theorem Expression.build_alike (e : Expression α) {s t : Session α} (hs : s.Canonical)
    (ht : t.Canonical) : Build.Alike e.build e.build s t := by
  induction e generalizing s t with
  | tt => exact Build.tt_alike hs ht
  | ff => exact Build.ff_alike hs ht
  | prop a => exact Build.prop_alike hs ht a
  | not e ih =>
    refine (ih hs ht).bind ?_
    rintro f f' u v hu hv - - hf hf' hff'
    exact Build.not_alike hu hv hf hf' hff'
  | next e ih =>
    refine (ih hs ht).bind ?_
    rintro f f' u v hu hv - - hf hf' hff'
    exact Build.next_alike hu hv hf hf' hff'
  | always e ih =>
    refine (ih hs ht).bind ?_
    rintro f f' u v hu hv - - hf hf' hff'
    refine (Build.ff_alike hu hv).bind ?_
    intro z z' w x hw hx hkeep hkeep' hz hz' hzz'
    exact Build.binary_alike hw hx .release hz hz' (hkeep f hf) (hkeep' f' hf') hzz' hff'
  | eventually e ih =>
    refine (ih hs ht).bind ?_
    rintro f f' u v hu hv - - hf hf' hff'
    refine (Build.tt_alike hu hv).bind ?_
    intro z z' w x hw hx hkeep hkeep' hz hz' hzz'
    exact Build.binary_alike hw hx .strongUntil hz hz' (hkeep f hf) (hkeep' f' hf') hzz' hff'
  | binary op l r ihl ihr =>
    refine (ihl hs ht).bind ?_
    rintro f f' u v hu hv - - hf hf' hff'
    refine (ihr hu hv).bind ?_
    intro g g' w x hw hx hkeep hkeep' hg hg' hgg'
    exact Build.binary_alike hw hx op (hkeep f hf) (hkeep' f' hf') hg hg' hff' hgg'
  -- the left operand is negated in between
  | implies l r ihl ihr =>
    refine (ihl hs ht).bind ?_
    rintro f f' u v hu hv - - hf hf' hff'
    refine (ihr hu hv).bind ?_
    intro g g' w x hw hx hkeep hkeep' hg hg' hgg'
    refine (Build.not_alike hw hx (hkeep f hf) (hkeep' f' hf') hff').bind ?_
    intro n n' y z hy hz hkeep hkeep' hn hn' hnn'
    exact Build.binary_alike hy hz .disj hn hn' (hkeep g hg) (hkeep' g' hg') hnn' hgg'

/-! ## §2. One rule, all rules -/

namespace Rule

variable {s t : Session α} {rule : Rule} {rules : List Rule} {f f' g g' : Formula α}

/-- What is asked of rules: they can be applied wherever they match, all their instances
    are found, and the replacement does not depend on the order of operands. -/
structure Reliable (rule : Rule) : Prop where
  wellFormed : rule.WellFormed
  steady : rule.pattern.steady [] [] = true
  orderly : rule.orderly = true

/-- The default rules are reliable. -/
theorem standard_reliable (stamp : Nat) :
    ∀ rule ∈ (RuleTable.standard stamp).1.rules, rule.Reliable :=
  fun rule hrule => ⟨Workspace.standard_wellFormed stamp rule hrule,
    Bindings.standard_steady stamp rule hrule, standard_orderly stamp rule hrule⟩

/-- An instance of the pattern becomes one of the replacement; other formulas stay. -/
def Applied (rule : Rule) (f g : Formula α) : Prop :=
  rule.Rewrites f g ∨ (g = f ∧ ∀ σ, ¬ rule.pattern.Instance σ f)

/-- The rules one after the other. -/
inductive AppliedAll : List Rule → Formula α → Formula α → Prop
  | nil (f : Formula α) : AppliedAll [] f f
  | cons {rule : Rule} {rules : List Rule} {f g k : Formula α} (h : rule.Applied f g)
    (hg : g.Resolved) (hrest : AppliedAll rules g k) : AppliedAll (rule :: rules) f k

/-- A reliable rule takes alike formulas to alike formulas. -/
theorem Applied.congr (hrule : rule.Reliable) (h : rule.Applied f g) (h' : rule.Applied f' g')
    (hff' : f.Alike f') (hg : g.Resolved) (hg' : g'.Resolved) : g.Alike g' := by
  rcases h with h | ⟨rfl, hnone⟩
  · rcases h' with h' | ⟨rfl, hnone⟩
    · exact h.congr hrule.wellFormed hrule.orderly h' hff' hg hg'
    · obtain ⟨b, hmatches, -⟩ := h
      exact absurd (hmatches.instance_given.congr hff') (hnone _)
  · rcases h' with h' | ⟨rfl, -⟩
    · obtain ⟨b, hmatches, -⟩ := h'
      exact absurd (hmatches.instance_given.congr hff'.symm) (hnone _)
    · exact hff'

/-- A list of reliable rules takes alike formulas to alike formulas. -/
theorem AppliedAll.congr (hrules : ∀ rule ∈ rules, rule.Reliable) (h : AppliedAll rules f g)
    (h' : AppliedAll rules f' g') (hff' : f.Alike f') : g.Alike g' := by
  induction h generalizing f' g' with
  | nil f =>
    cases h'
    exact hff'
  | cons h hg _ ih =>
    cases h' with
    | cons h' hg' hrest' =>
      obtain ⟨hrule, hrules⟩ := List.forall_mem_cons.1 hrules
      exact ih hrules hrest' (h.congr hrule h' hff' hg hg')

/-- Applying a reliable rule gives what the rule determines. -/
theorem apply_leads_applied (hrule : rule.Reliable) (hs : s.Canonical) (hf : f ∈ s.interned) :
    Build.Leads Session.Canonical (rule.apply f) s fun g t =>
      g ∈ t.interned ∧ rule.Applied f g := by
  have hleads := rule.apply_leads hs hf
  refine hleads.told ⟨hleads.result.1, ?_⟩
  cases hb : Bindings.extend? rule.pattern f [] with
  | none =>
    have hrun : rule.apply f s = (f, s) := by
      unfold apply
      simp only [hb]
      rfl
    -- Matching is complete for reliable rules: there is no other instance either.
    rw [hrun]
    refine .inr ⟨rfl, fun σ hσ => ?_⟩
    have hsome := (Bindings.extend?_isSome_iff hs hf hrule.steady).2 ⟨σ, hσ⟩
    rw [hb] at hsome
    cases hsome
  | some b =>
    obtain ⟨g, t, hfill, hrun⟩ := hrule.wellFormed.apply_run hb s
    have hnone : Bindings.From ([] : Bindings α) s.interned := nofun
    have hfound := Bindings.extend?_matches hs.family hnone hf hb
    have hfilled := (Bindings.fill_leads hs hfound.within rule.replacement).result g
      (congrArg Prod.fst hfill)
    rw [hrun]
    exact .inl ⟨b, hfound.matches_, hfilled.2⟩

/-- Applying reliable rules in order gives what they determine. -/
theorem applyAll_leads_applied (hrules : ∀ rule ∈ rules, rule.Reliable) (hs : s.Canonical)
    (hf : f ∈ s.interned) :
    Build.Leads Session.Canonical (applyAll rules f) s fun g t =>
      g ∈ t.interned ∧ AppliedAll rules f g := by
  induction rules generalizing s f with
  | nil => exact .pure hs ⟨hf, .nil f⟩
  | cons rule rules ih =>
    obtain ⟨hrule, hrules⟩ := List.forall_mem_cons.1 hrules
    show Build.Leads Session.Canonical (rule.apply f >>= applyAll rules) s _
    refine (apply_leads_applied hrule hs hf).bind ?_
    rintro g t ht - ⟨hg, happlied⟩
    refine (ih hrules ht hg).mono ?_
    rintro k u - ⟨hk, hrest⟩
    exact ⟨hk, .cons happlied (ht.resolved hg) hrest⟩

/-! ## §3. One pass, all passes -/

/-- What a pass gives: the operands passed over, the operator over what they give, and the
    rules on that. -/
inductive Passed (rules : List Rule) : Formula α → Formula α → Prop
  | literal {f g : Formula α} (hf : f.isLiteral = true) (h : AppliedAll rules f g) : Passed rules f g
  | next (i j : Nat) {f f' g : Formula α} (hf : Passed rules f f')
    (h : AppliedAll rules (.next j f') g) : Passed rules (.next i f) g
  | binary (i : Nat) {op : BinaryOp} {l r l' r' k g : Formula α} (hl : Passed rules l l')
    (hr : Passed rules r r') (made : Formula.Made op l' r' k) (hk : k.Resolved)
    (h : AppliedAll rules k g) : Passed rules (.binary i op l r) g

/-- A pass over alike formulas gives alike formulas. -/
theorem Passed.congr (hrules : ∀ rule ∈ rules, rule.Reliable) (h : Passed rules f g)
    (h' : Passed rules f' g') (hff' : f.Alike f') : g.Alike g' := by
  induction h generalizing f' g' with
  | literal hf h =>
    cases h' with
    | literal _ h' => exact h.congr hrules h' hff'
    | next =>
      cases hff'
      cases hf
    | binary => cases hff' <;> cases hf
  | next i j _ h ih =>
    cases hff' with
    | next _ i' hff' =>
      cases h' with
      | literal hf => cases hf
      | next _ j' hf' h' => exact h.congr hrules h' (.next j j' (ih hf' hff'))
  | @binary i op l r l' r' k g _ _ made hk h ihl ihr =>
    cases hff' with
    | straight _ i' _ hll' hrr' =>
      cases h' with
      | literal hf => cases hf
      | binary _ h'l h'r made' hk' h' =>
        exact h.congr hrules h' (made.congr made' hk hk' (ihl h'l hll') (ihr h'r hrr'))
    -- Swapped operands: the formula made of them is likewise swapped.
    | crossed _ i' hop hlr' hrl' =>
      cases h' with
      | literal hf => cases hf
      | binary _ h'l h'r made' hk' h' =>
        exact h.congr hrules h' (made.congr (made'.comm hop) hk hk' (ihl h'r hlr') (ihr h'l hrl'))

/-- A pass over a formula gives what the rules determine. -/
theorem tracked_passed (hrules : ∀ rule ∈ rules, rule.Reliable) :
    Tracked (α := α) Session.Canonical rules (Passed rules) where
  literal hs f hliteral hf := by
    refine (applyAll_leads_applied hrules hs hf).mono ?_
    rintro g t - ⟨hg, happlied⟩
    exact ⟨hg, .literal hliteral happlied⟩
  next hs i f f' _ hf' hpassed := by
    refine (Build.next_leads hs hf').bind ?_
    rintro k t ht - ⟨hk, j, rfl⟩
    refine (applyAll_leads_applied hrules ht hk).mono ?_
    rintro g u - ⟨hg, happlied⟩
    exact ⟨hg, .next i j hpassed happlied⟩
  -- first the operator over the new operands, then the rules
  binary hs i op l r l' r' _ hl' hr' hpassedl hpassedr := by
    refine (Build.binary_leads hs op hl' hr').bind ?_
    rintro k t ht - ⟨hk, made⟩
    refine (applyAll_leads_applied hrules ht hk).mono ?_
    rintro g u - ⟨hg, happlied⟩
    exact ⟨hg, .binary i hpassedl hpassedr made (ht.resolved hk) happlied⟩

/-- What the passes settle on, over the formula or over its negation: the first pass over
    the negation that leaves it alike is the last one. -/
inductive SettledOn (rules : List Rule) : Bool → Formula α → Formula α → Prop
  | last {f g h : Formula α} (hpass : Passed rules f g) (hsame : g.Alike f)
    (neg : Formula.Negates g h) (hh : h.Resolved) : SettledOn rules true f h
  | step {b : Bool} {f g h k : Formula α} (hpass : Passed rules f g)
    (hchanged : b = true → ¬ g.Alike f) (neg : Formula.Negates g h) (hh : h.Resolved)
    (hrest : SettledOn rules (!b) h k) : SettledOn rules b f k

/-- Over alike formulas the passes settle on alike formulas. -/
theorem SettledOn.congr (hrules : ∀ rule ∈ rules, rule.Reliable) {b : Bool}
    (h : SettledOn rules b f g) (h' : SettledOn rules b f' g') (hff' : f.Alike f') :
    g.Alike g' := by
  induction h generalizing f' g' with
  -- Alike formulas change or stay alike, so both runs end at the same pass.
  | last hpass hsame neg hh =>
    cases h' with
    | last hpass' _ neg' hh' => exact neg.congr neg' (hpass.congr hrules hpass' hff') hh hh'
    | step hpass' hchanged =>
      have halike := (hpass.congr hrules hpass' hff').symm.trans (hsame.trans hff')
      exact absurd halike (hchanged rfl)
  | step hpass hchanged neg hh _ ih =>
    cases h' with
    | last hpass' hsame' neg' hh' =>
      have halike := (hpass.congr hrules hpass' hff').trans (hsame'.trans hff'.symm)
      exact absurd halike (hchanged rfl)
    | step hpass' _ neg' hh' hrest' =>
      exact ih hrest' (neg.congr neg' (hpass.congr hrules hpass' hff') hh hh')

/-- Passes until nothing changes settle on what the rules determine. -/
theorem settle?_leads_settledOn (hrules : ∀ rule ∈ rules, rule.Reliable) (passes : Nat)
    (negated : Bool) (hs : s.Canonical) (hf : f ∈ s.interned) :
    Build.Leads Session.Canonical (settle? rules passes negated f) s fun r t =>
      ∀ g, r = some g → g ∈ t.interned ∧ SettledOn rules negated f g := by
  refine (tracked_passed hrules).settle?_leads ?_ ?_ passes negated hs hf
  · intro t ht f h _ hh hpass hneg
    exact .last hpass (.refl f) hneg (ht.resolved hh)
  · intro t ht b f g h k hf hg hh hpass hchanged hneg hrest
    refine .step hpass ?_ hneg (ht.resolved hh) hrest
    exact fun hb halike => hchanged hb (ht.eq_of_alike hg hf halike)

end Rule

/-! ## §4. Sessions with constructor calls only -/

/-- The sessions that come about by constructor calls, without simplifications or
    resets. -/
inductive Session.Constructed : Session α → Prop
  | start : Constructed {}
  | call {s : Session α} (c : Build.Call α) (h : Constructed s)
    (hc : ∀ f ∈ c.operands, f ∈ s.interned) : Constructed (c.run s).2

namespace Session.Constructed

variable {s t : Session α}

/-- Sessions in which formulas were only built are canonical. -/
theorem canonical (h : s.Constructed) : s.Canonical := by
  induction h with
  | start => exact Session.canonical_of_interned_nil rfl
  | call c _ hc ih => exact (c.run_leads ih hc).sound

/-- Building a formula keeps a session constructed. -/
theorem build (h : s.Constructed) (e : Expression α) : (e.build s).2.Constructed :=
  e.build_keeps Constructed.canonical (fun c h hc => .call c h hc) h

omit [EquivBEq α] in
/-- No formula has a mark. -/
theorem numbered (h : s.Constructed) : s.Numbered [] ∧ s.produced = [] := by
  induction h with
  | start => exact ⟨Session.numbered_start, rfl⟩
  | call c _ hc ih =>
    have hleads := c.run_leads ih.1 fun f hf => List.mem_append_left [] (hc f hf)
    exact ⟨hleads.sound, hleads.later.produced.trans ih.2⟩

end Session.Constructed

omit [EquivBEq α] in
/-- Of two alike formulas both are literals or neither is. -/
theorem Formula.Alike.isLiteral_eq {f f' : Formula α} (h : f.Alike f') :
    f.isLiteral = f'.isLiteral := by
  cases h <;> rfl

namespace RuleTable

variable {s t : Session α} {f : Formula α}

/-- What simplification gives for a formula, in a session without marks: the formula if
    it is a literal, and what the passes settle on otherwise. -/
theorem simplify_settledOn (stamp : Nat) (hs : s.Canonical) (hf : f ∈ s.interned)
    (hproduced : s.produced = []) :
    (f.isLiteral = true ∧ ((standard stamp).1.simplify f s).1 = f)
      ∨ (f.isLiteral = false ∧ Rule.SettledOn (standardRules.run {}).1 false f
          ((standard stamp).1.simplify f s).1) := by
  have hunmarked : s.producedBy f (standard stamp).1.stamp = false := by
    unfold Session.producedBy
    rw [hproduced]
    rfl
  have hsettles := settles stamp hs hf
  have hsettled := (Rule.settle?_leads_settledOn (Rule.standard_reliable stamp)
    (Rule.passLimit f) false hs hf).result
  -- The default rules settle within the limit, so there is a result.
  rw [standard_rules stamp] at hsettles hsettled
  rw [simplify_run, hunmarked, Bool.or_false, standard_rules]
  revert hsettles hsettled
  generalize Rule.settle? (standardRules.run {}).1 (Rule.passLimit f) false f s = result
  intro hsettles hsettled
  obtain ⟨_ | g, u⟩ := result
  · cases hsettles
  · cases hliteral : f.isLiteral with
    | true => exact .inl ⟨rfl, rfl⟩
    | false => exact .inr ⟨rfl, (hsettled g rfl).2⟩

/-- Simplification does not depend on the order in which formulas were created.  Let an
    expression be built and simplified with the built-in rules in two sessions, in which
    any constructor calls were made before.  Then the results are the same tree up to
    numbers and the order of the operands of conjunctions and disjunctions. -/
theorem simplification_order_independent (hs : s.Constructed) (ht : t.Constructed)
    (e : Expression α) (stamp stamp' : Nat) :
    ((standard stamp).1.simplify (e.build s).1 (e.build s).2).1.Alike
      ((standard stamp').1.simplify (e.build t).1 (e.build t).2).1 := by
  have hbuilt := e.build_alike hs.canonical ht.canonical
  have hresult := simplify_settledOn stamp hbuilt.leads.sound hbuilt.leads.result
    (hs.build e).numbered.2
  have hresult' := simplify_settledOn stamp' hbuilt.leads'.sound hbuilt.leads'.result
    (ht.build e).numbered.2
  have hliteral := hbuilt.alike.isLiteral_eq
  -- Either both formulas are literals or neither is.
  rcases hresult with ⟨hlit, heq⟩ | ⟨hlit, hsettled⟩
  · rcases hresult' with ⟨-, heq'⟩ | ⟨hlit', -⟩
    · rw [heq, heq']
      exact hbuilt.alike
    · rw [hlit, hlit'] at hliteral
      cases hliteral
  · rcases hresult' with ⟨hlit', -⟩ | ⟨-, hsettled'⟩
    · rw [hlit, hlit'] at hliteral
      cases hliteral
    · have hrules := Rule.standard_reliable stamp
      rw [standard_rules] at hrules
      exact hsettled.congr hrules hsettled' hbuilt.alike

/-- `( a U c ) /\ ( b U c )`, built in a new session and in one in which `b U c` was there
    before: the operands are exchanged, and so are those of the result. -/
theorem simplification_order_independent_untils :
    let e : Expression String := .binary .conj (.binary .strongUntil (.prop "a") (.prop "c"))
      (.binary .strongUntil (.prop "b") (.prop "c"))
    let t := ((Expression.binary .strongUntil (.prop "b") (.prop "c")).build
      ({} : Session String)).2
    Session.Constructed ({} : Session String) ∧ t.Constructed
      ∧ (e.build {}).1.text = "( ( a U c ) /\\ ( b U c ) )"
      ∧ (e.build t).1.text = "( ( b U c ) /\\ ( a U c ) )"
      ∧ ((standard 0).1.simplify (e.build {}).1 (e.build {}).2).1.Alike
        ((standard 0).1.simplify (e.build t).1 (e.build t).2).1 := by
  intro e t
  have ht : t.Constructed := Session.Constructed.start.build _
  exact ⟨.start, ht, by decide +kernel, by decide +kernel,
    simplification_order_independent .start ht e 0 0⟩

end RuleTable
end LinearTime
