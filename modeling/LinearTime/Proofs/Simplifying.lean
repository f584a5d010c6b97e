/-
  LinearTime.Proofs.Simplifying — what passes over a formula keep.

  A pass rebuilds a formula bottom-up and tries every rule at every node.  What
  it keeps is a relation between a formula and its result that

    * is reflexive and transitive,
    * holds for every application of a rule, and
    * goes through the operators,

  for such a relation holds between a formula and its pass (`pass_leads`).  What
  is needed for this is only that rebuilding a node over related operands and
  trying the rules on it leads to a related formula (`Tracked`); relations that
  are not transitive can be of this kind too.  The results noted on the way are
  related to the formulas with their numbers, so sharing does not disturb this.

  Main results:
    * `Tracked.pass_leads` — one pass, for any relation that rebuilding keeps.
    * `Tracked.settle?_leads` — passes over a formula and its negation in turns.
    * `pass_leads`, `settle?_leads` — both, for relations of the kind above.
    * `simplify_run` — simplification, opened up once.
    * `simplify_canonical` — simplification keeps a session canonical, whatever
      the rules are.
-/

import LinearTime.Proofs.Matching
import LinearTime.Rules.Simplification

namespace LinearTime

variable {α : Type}

open Session (Discipline)

/-! ## §1. One rule, all rules -/

/-- `g` is an instance of the replacement, where `f` is the instance of the
    pattern. -/
def Rule.Rewrites (rule : Rule) (f g : Formula α) : Prop :=
  ∃ b, Bindings.Matches b rule.pattern f ∧ Bindings.Filled b rule.replacement g

/-- A relation that a pass with these rules keeps. -/
structure Rule.Kept [BEq α] (Sound : Session α → Prop) [Discipline Sound]
    (rules : List Rule) (R : Formula α → Formula α → Prop) : Prop where
  refl : ∀ f, R f f
  trans : ∀ {f g h}, R f g → R g h → R f h
  rewrites : ∀ rule ∈ rules, ∀ f g, rule.Rewrites f g → R f g
  next : ∀ {s : Session α}, Sound s → ∀ {id f f'}, .next id f ∈ s.known Sound →
    f' ∈ s.known Sound → R f f' →
    Build.Makes Sound (Build.next f') s (R (.next id f))
  binary : ∀ {s : Session α}, Sound s → ∀ {id op l r l' r'},
    .binary id op l r ∈ s.known Sound → l' ∈ s.known Sound → r' ∈ s.known Sound → R l l' → R r r' →
    Build.Makes Sound (Build.binary op l' r') s (R (.binary id op l r))

variable [BEq α] {Sound : Session α → Prop} [Discipline Sound] {s : Session α}
  {rules : List Rule} {R : Formula α → Formula α → Prop}

/-- Applying a rule leaves the formula or rewrites it, in any session whose discipline interning
    keeps. -/
theorem Rule.apply_leads (h : Sound s) (rule : Rule) {f : Formula α}
    (hf : f ∈ s.known Sound) :
    Build.Makes Sound (rule.apply f) s fun g => g = f ∨ rule.Rewrites f g := by
  unfold apply
  split
  next => exact .pure h ⟨hf, .inl rfl⟩
  next b hb =>
    have hnone : Bindings.From ([] : Bindings α) (s.known Sound) := nofun
    -- what is bound is part of `f`, so it is known
    have hfound := Bindings.extend?_matches (Discipline.family h) hnone hf hb
    refine (Bindings.fill_leads h hfound.within rule.replacement).bind fun r t ht hkeep hr => ?_
    refine .pure ht ?_
    cases r with
    | none => exact ⟨hkeep f hf, .inl rfl⟩
    | some g => exact ⟨(hr g rfl).1, .inr ⟨b, hfound.matches_, (hr g rfl).2⟩⟩

/-- Applying the rules in order gives what is kept of them. -/
theorem Rule.applyAll_leads (kept : Rule.Kept Sound rules R) (h : Sound s) {f : Formula α}
    (hf : f ∈ s.known Sound) :
    Build.Makes Sound (applyAll rules f) s (R f) := by
  -- by induction over the rules still to be tried, all of them rules of the table
  have hsome (some : List Rule) (hsome : ∀ rule ∈ some, rule ∈ rules) (s : Session α)
      (h : Sound s) (f : Formula α) (hf : f ∈ s.known Sound) :
      Build.Makes Sound (applyAll some f) s (R f) := by
    induction some generalizing s f with
    | nil => exact .pure h ⟨hf, kept.refl f⟩
    | cons rule some ih =>
      show Build.Leads Sound (rule.apply f >>= fun g => applyAll some g) s _
      refine (rule.apply_leads h hf).bind ?_
      rintro g t ht - ⟨hg, hfg⟩
      have hR : R f g := by
        rcases hfg with rfl | hfg
        · exact kept.refl g
        · exact kept.rewrites rule (hsome rule List.mem_cons_self) f g hfg
      refine (ih (fun rule hr => hsome rule (List.mem_cons_of_mem _ hr)) t ht g hg).mono ?_
      rintro k u - ⟨hk, hgk⟩
      exact ⟨hk, kept.trans hR hgk⟩
  exact hsome rules (fun _ hr => hr) s h f hf

/-! ## §2. Noted results -/

/-- All that is noted is related to the formula with its number. -/
def Memo.Tracks (R : Formula α → Formula α → Prop) (memo : Memo (Formula α))
    (U : List (Formula α)) : Prop :=
  ∀ id g, memo.lookup id = some g → g ∈ U ∧ ∃ f ∈ U, f.id = id ∧ R f g

omit [BEq α] in
theorem Memo.Tracks.subset {memo : Memo (Formula α)} {U V : List (Formula α)}
    (h : memo.Tracks R U) (hUV : ∀ f ∈ U, f ∈ V) : memo.Tracks R V := by
  intro id g hg
  obtain ⟨hgU, f, hf, hid, hR⟩ := h id g hg
  exact ⟨hUV g hgU, f, hUV f hf, hid, hR⟩

omit [BEq α] in
theorem Memo.recall_run {β : Type} (id : Nat) (compute : StateT (Memo β) (Build α) β)
    (memo : Memo β) : Memo.recall id compute memo
      = match memo.lookup id with
        | some b => pure (b, memo)
        | none => compute memo >>= fun p => pure (p.1, (id, p.1) :: p.2) := by
  cases h : memo.lookup id with
  | some b =>
    funext s
    simp [Memo.recall, bind, StateT.bind, get, getThe, MonadStateOf.get, StateT.get, pure,
      StateT.pure, h]
  | none =>
    funext s
    simp [Memo.recall, bind, StateT.bind, get, getThe, MonadStateOf.get, StateT.get, pure,
      StateT.pure, h, modify, modifyGet, MonadStateOf.modifyGet, StateT.modifyGet]

/-- Looking a result up, or computing and noting it, gives a result of the same kind. -/
theorem Memo.recall_leads {f : Formula α} (h : Sound s) (hf : f ∈ s.known Sound)
    {memo : Memo (Formula α)} (hmemo : memo.Tracks R (s.known Sound))
    {compute : StateT (Memo (Formula α)) (Build α) (Formula α)}
    (hcompute : Build.Leads Sound (compute memo) s fun p t =>
      p.1 ∈ t.known Sound ∧ R f p.1 ∧ Memo.Tracks R p.2 (t.known Sound)) :
    Build.Leads Sound (Memo.recall f.id compute memo) s fun p t =>
      p.1 ∈ t.known Sound ∧ R f p.1 ∧ Memo.Tracks R p.2 (t.known Sound) := by
  rw [Memo.recall_run]
  split
  next g hlookup =>
    -- Numbers tell known formulas apart, so what is noted was noted for `f`.
    obtain ⟨hg, f', hf', hid, hR⟩ := hmemo _ g hlookup
    rw [(Discipline.family h).eq_of_id_eq hf' hf hid] at hR
    exact .pure h ⟨hg, hR, hmemo⟩
  next =>
    refine hcompute.bind ?_
    rintro ⟨g, noted⟩ t ht hkeep ⟨hg, hR, htracks⟩
    refine .pure ht ⟨hg, hR, fun id k hk => ?_⟩
    rw [List.lookup_cons] at hk
    split at hk
    next heq =>
      obtain rfl := Option.some.inj hk
      exact ⟨hg, f, hkeep f hf, (beq_iff_eq.1 heq).symm, hR⟩
    next => exact htracks id k hk

/-- A job that notes nothing itself. -/
theorem Memo.Tracks.after {memo : Memo (Formula α)} (hmemo : memo.Tracks R (s.known Sound))
    {f : Formula α} {job : Build α (Formula α)} (h : Build.Makes Sound job s (R f)) :
    Build.Leads Sound (job >>= fun g => pure (g, memo)) s fun p t =>
      p.1 ∈ t.known Sound ∧ R f p.1 ∧ Memo.Tracks R p.2 (t.known Sound) := by
  refine h.bind ?_
  rintro g t ht hkeep ⟨hg, hR⟩
  exact .pure ht ⟨hg, hR, hmemo.subset hkeep⟩

/-! ## §3. One pass -/

/-- A relation that a pass with these rules gives for a formula if it gives it for the
    operands. -/
structure Rule.Tracked (Sound : Session α → Prop) [Discipline Sound] (rules : List Rule)
    (R : Formula α → Formula α → Prop) : Prop where
  literal : ∀ {s : Session α}, Sound s → ∀ {f}, f.isLiteral = true → f ∈ s.known Sound →
    Build.Makes Sound (applyAll rules f) s (R f)
  next : ∀ {s : Session α}, Sound s → ∀ {id f f'}, .next id f ∈ s.known Sound →
    f' ∈ s.known Sound → R f f' →
    Build.Makes Sound (Build.next f' >>= applyAll rules) s (R (.next id f))
  binary : ∀ {s : Session α}, Sound s → ∀ {id op l r l' r'},
    .binary id op l r ∈ s.known Sound → l' ∈ s.known Sound → r' ∈ s.known Sound → R l l' → R r r' →
    Build.Makes Sound (Build.binary op l' r' >>= applyAll rules) s (R (.binary id op l r))

/-- Building a node and trying the rules on it. -/
theorem Rule.rebuilt_leads (kept : Rule.Kept Sound rules R) {f : Formula α}
    {job : Build α (Formula α)} (hjob : Build.Makes Sound job s (R f)) :
    Build.Makes Sound (job >>= applyAll rules) s (R f) := by
  refine hjob.bind ?_
  rintro g t ht - ⟨hg, hR⟩
  refine (applyAll_leads kept ht hg).mono ?_
  rintro k u - ⟨hk, hR'⟩
  exact ⟨hk, kept.trans hR hR'⟩

/-- What every rule keeps can be tracked through a whole formula. -/
theorem Rule.Kept.tracked (kept : Rule.Kept Sound rules R) : Tracked Sound rules R where
  literal hs _ _ hf := applyAll_leads kept hs hf
  next hs _ _ _ hf hf' hR := rebuilt_leads kept (kept.next hs hf hf' hR)
  binary hs _ _ _ _ _ _ hf hl' hr' hl hr := rebuilt_leads kept (kept.binary hs hf hl' hr' hl hr)

/-- Rewriting a formula from its leaves up gives what is tracked. -/
theorem Rule.Tracked.visit_leads (tracked : Tracked Sound rules R) (h : Sound s) {f : Formula α}
    (hf : f ∈ s.known Sound) {memo : Memo (Formula α)} (hmemo : memo.Tracks R (s.known Sound)) :
    Build.Leads Sound ((rebuilding rules).visit f memo) s fun p t =>
      p.1 ∈ t.known Sound ∧ R f p.1 ∧ Memo.Tracks R p.2 (t.known Sound) := by
  induction f generalizing s memo with
  | tt | ff | prop | negProp =>
    exact Memo.recall_leads h hf hmemo (hmemo.after (tracked.literal h rfl hf))
  | next id f ih =>
    refine Memo.recall_leads h hf hmemo ?_
    have hf' := (Discipline.family h).next_mem hf
    -- the turn of the fold, written as one sequence
    show Build.Leads Sound ((rebuilding rules).visit f memo >>= fun p =>
      (Build.next p.1 >>= applyAll rules) >>= fun g => pure (g, p.2)) s _
    refine (ih h hf' hmemo).bind ?_
    rintro ⟨f', noted⟩ t ht hkeep ⟨hf', hR, htracks⟩
    exact htracks.after (tracked.next ht (hkeep _ hf) hf' hR)
  | binary id op l r ihl ihr =>
    refine Memo.recall_leads h hf hmemo ?_
    have hl := (Discipline.family h).left_mem hf
    have hr := (Discipline.family h).right_mem hf
    show Build.Leads Sound ((rebuilding rules).visit l memo >>= fun p =>
      (rebuilding rules).visit r p.2 >>= fun q =>
        (Build.binary op p.1 q.1 >>= applyAll rules) >>= fun g => pure (g, q.2)) s _
    refine (ihl h hl hmemo).bind ?_
    rintro ⟨l', noted⟩ t ht hkeep ⟨hl', hRl, htracks⟩
    refine (ihr ht (hkeep r hr) htracks).bind ?_
    rintro ⟨r', noted'⟩ u hu hkeep' ⟨hr', hRr, htracks'⟩
    exact htracks'.after (tracked.binary hu (hkeep' _ (hkeep _ hf)) (hkeep' _ hl') hr' hRl hRr)

/-- What a pass gives for the formula as a whole. -/
theorem Rule.Tracked.pass_leads (tracked : Tracked Sound rules R) (h : Sound s) {f : Formula α}
    (hf : f ∈ s.known Sound) :
    Build.Makes Sound (pass rules f) s (R f) := by
  have hnone : Memo.Tracks R ([] : Memo (Formula α)) (s.known Sound) := nofun
  show Build.Leads Sound ((rebuilding rules).visit f [] >>= fun p => pure p.1) s _
  refine (tracked.visit_leads h hf hnone).bind ?_
  rintro ⟨g, noted⟩ t ht - ⟨hg, hR, -⟩
  exact .pure ht ⟨hg, hR⟩

/-- A pass keeps what its rules and the operators keep. -/
theorem Rule.pass_leads (kept : Rule.Kept Sound rules R) (h : Sound s) {f : Formula α}
    (hf : f ∈ s.known Sound) :
    Build.Makes Sound (pass rules f) s (R f) :=
  kept.tracked.pass_leads h hf

/-! ## §4. All passes -/

/-- The relation that says nothing is kept by all rules. -/
theorem Rule.kept_true (rules : List Rule) : Rule.Kept Sound rules fun _ _ => True where
  refl _ := trivial
  trans _ _ := trivial
  rewrites _ _ _ _ _ := trivial
  next h _ _ _ _ hf _ := by
    refine (Build.next_leads h hf).mono ?_
    rintro g t - ⟨hg, -⟩
    exact ⟨hg, trivial⟩
  binary h _ op _ _ _ _ _ hl hr _ _ := by
    refine (Build.binary_leads h op hl hr).mono ?_
    rintro g t - ⟨hg, -⟩
    exact ⟨hg, trivial⟩

/-- The passes taken together.  `N negated f g` says that `g` stands for `f`, or
    for its negation.  The last pass is the first one over a negation that changes
    nothing. -/
theorem Rule.Tracked.settle?_leads (tracked : Tracked Sound rules R)
    {N : Bool → Formula α → Formula α → Prop}
    (last : ∀ {t : Session α}, Sound t → ∀ {f h}, f ∈ t.known Sound → h ∈ t.known Sound →
      R f f → Formula.Negates f h → N true f h)
    (step : ∀ {t : Session α}, Sound t → ∀ {b f g h k}, f ∈ t.known Sound → g ∈ t.known Sound →
      h ∈ t.known Sound → R f g → (b = true → g ≠ f) → Formula.Negates g h → N (!b) h k → N b f k)
    (passes : Nat) (negated : Bool) (h : Sound s) {f : Formula α} (hf : f ∈ s.known Sound) :
    Build.Leads Sound (settle? rules passes negated f) s fun r t =>
      ∀ g, r = some g → g ∈ t.known Sound ∧ N negated f g := by
  induction passes generalizing negated s f with
  | zero => exact .pure h fun g hg => by cases hg
  | succ passes ih =>
    refine (tracked.pass_leads h hf).bind ?_
    rintro g t ht hkeep ⟨hg, hR⟩
    refine (Build.not_leads ht hg).bind ?_
    rintro n u hu hkeep' ⟨hn, hneg⟩
    have hf := hkeep' f (hkeep f hf)
    have hg := hkeep' g hg
    split
    next hdone =>
      -- The pass on the negation found nothing to do.
      obtain ⟨hsame, rfl⟩ := Bool.and_eq_true_iff.1 hdone
      obtain rfl := (Discipline.family hu).eq_of_id_eq hg hf (Formula.same_iff.1 hsame)
      refine .pure hu fun k hk => ?_
      obtain rfl := Option.some.inj hk
      exact ⟨hn, last hu hf hn hR hneg⟩
    next hgo =>
      have hchanged : negated = true → g ≠ f := by
        rintro rfl rfl
        exact hgo (by simp [Formula.same])
      refine (ih (!negated) hu hn).mono fun r w _ hr k hk => ?_
      exact ⟨(hr k hk).1, step hu hf hg hn hR hchanged hneg (hr k hk).2⟩

/-- The same for what is kept, whichever pass is the last one. -/
theorem Rule.settle?_leads (kept : Rule.Kept Sound rules R)
    {N : Bool → Formula α → Formula α → Prop}
    (last : ∀ f g h, R f g → Formula.Negates g h → N true f h)
    (step : ∀ b f g h k, R f g → Formula.Negates g h → N (!b) h k → N b f k)
    (passes : Nat) (negated : Bool) (h : Sound s) {f : Formula α} (hf : f ∈ s.known Sound) :
    Build.Leads Sound (settle? rules passes negated f) s fun r t =>
      ∀ g, r = some g → g ∈ t.known Sound ∧ N negated f g :=
  kept.tracked.settle?_leads (fun _ _ _ _ _ hR hneg => last _ _ _ hR hneg)
    (fun _ _ _ _ _ _ _ _ _ hR _ hneg hk => step _ _ _ _ _ hR hneg hk) passes negated h hf

/-- Whatever the rules are, the passes settle on a known formula. -/
theorem Rule.settle?_known (rules : List Rule) (passes : Nat) (negated : Bool) (h : Sound s)
    {f : Formula α} (hf : f ∈ s.known Sound) :
    Build.Leads Sound (settle? rules passes negated f) s fun r t =>
      ∀ g, r = some g → g ∈ t.known Sound := by
  have hsettled := settle?_leads (kept_true rules) (N := fun _ _ _ => True)
    (fun _ _ _ _ _ => trivial) (fun _ _ _ _ _ _ _ _ => trivial) passes negated h hf
  exact hsettled.mono fun r t _ hr g hg => (hr g hg).1

/-- What simplification does with a session. -/
theorem RuleTable.simplify_run (table : RuleTable) (f : Formula α) (s : Session α) :
    table.simplify f s
      = if f.isLiteral || s.producedBy f table.stamp then (f, s)
        else match Rule.settle? table.rules (Rule.passLimit f) false f s with
          | (some g, t) => (g, t.markProduced g table.stamp)
          | (none, t) => (f, t) := by
  unfold simplify
  simp only [bind, StateT.bind, get, getThe, MonadStateOf.get, StateT.get, pure]
  split
  · rfl
  · unfold StateT.bind
    generalize Rule.settle? table.rules (Rule.passLimit f) false f s = p
    obtain ⟨_ | g, t⟩ := p <;> rfl

/-- Noting which table produced a formula changes no formula. -/
theorem Session.Canonical.markProduced (h : s.Canonical) (f : Formula α) (stamp : Nat) :
    (s.markProduced f stamp).Canonical :=
  ⟨h.newest_first, h.id_lt, h.operand_mem, h.operand_lt, h.shared, h.shaped⟩

omit [BEq α] in
theorem Session.Grows.markProduced {t : Session α} (h : s.Grows t) (f : Formula α)
    (stamp : Nat) : s.Grows (t.markProduced f stamp) :=
  ⟨⟨h.nextId_le, h.numbered⟩, h.keeps⟩

variable [EquivBEq α]

/-- Simplification keeps what all passes taken together keep. -/
theorem RuleTable.simplify_leads (table : RuleTable) (h : s.Canonical) {f : Formula α}
    (hf : f ∈ s.interned) {P : Formula α → Prop} (hself : P f)
    (hsettled : Build.Leads Session.Canonical
      (Rule.settle? table.rules (Rule.passLimit f) false f) s
      fun r t => ∀ g, r = some g → g ∈ t.interned ∧ P g) :
    Build.Leads Session.Canonical (table.simplify f) s fun g t => g ∈ t.interned ∧ P g := by
  have hrun := table.simplify_run f s
  split at hrun
  · refine ⟨?_, ?_, ?_⟩ <;> rw [hrun]
    · exact h
    · exact .refl s
    · exact ⟨hf, hself⟩
  -- Within the limit the passes come to a result or not; in the latter case `f` is given
  -- back.
  · obtain ⟨hcanonical, hgrows, hresult⟩ := hsettled
    generalize Rule.settle? table.rules (Rule.passLimit f) false f s = p at *
    obtain ⟨_ | g, t⟩ := p
    · refine ⟨?_, ?_, ?_⟩ <;> rw [hrun]
      · exact hcanonical
      · exact hgrows
      · exact ⟨hgrows.keeps f hf, hself⟩
    · refine ⟨?_, ?_, ?_⟩ <;> rw [hrun]
      · exact hcanonical.markProduced g table.stamp
      · exact hgrows.markProduced g table.stamp
      · exact hresult g rfl

/-- Simplification keeps a session canonical, whatever the rules are. -/
theorem RuleTable.simplify_canonical (table : RuleTable) (h : s.Canonical) {f : Formula α}
    (hf : f ∈ s.interned) :
    Build.Leads Session.Canonical (table.simplify f) s fun g t => g ∈ t.interned := by
  have hsettled := Rule.settle?_known table.rules (Rule.passLimit f) false h hf
  refine (table.simplify_leads (P := fun _ => True) h hf trivial ?_).mono ?_
  · exact hsettled.mono fun r t _ hr g hg => ⟨hr g hg, trivial⟩
  · exact fun _ _ _ hg => hg.1

end LinearTime
