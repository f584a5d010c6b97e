/-
  LinearTime.Proofs.Repetition — asking again gives the same and builds nothing.

  Interning looks for the shape first, and what is shared stays shared until the
  session is reset.  So an interning that is done a second time finds what the
  first one gave, whatever was interned in between:

      shared since then  +  no shape twice   ⟹   found again

  Constructors do nothing but intern, one formula after the other, and which ones
  they intern depends on the formulas at hand only.  What holds of one interning
  therefore holds of whole constructors, negation with all its intermediate
  formulas included, of filled replacements and of whole passes, with the results
  that they note.  Whether the operands are shared at the time, or were forgotten in
  a reset, does not matter.

  Main results:
    * `Made.again` — what is shared is found.
    * `Build.Replays` — the form of all statements about jobs done twice, with
      `Replays.bind` for one after the other.
    * `intern_replays`, `not_replays`, `pass_replays` — interning, negation, passes.
-/

import LinearTime.Proofs.Simplifying

namespace LinearTime

variable {α : Type}

/-! ## §1. Finding what is shared -/

section Finding

variable [BEq α] [EquivBEq α] {u : Session α}

namespace Build

theorem tt_again (hu : u.Canonical) {i : Nat} (hf : .tt i ∈ u.interned) :
    tt u = (.tt i, u) := intern_again hu.shared hf rfl

theorem ff_again (hu : u.Canonical) {i : Nat} (hf : .ff i ∈ u.interned) :
    ff u = (.ff i, u) := intern_again hu.shared hf rfl

theorem negProp_again (hu : u.Canonical) {i k : Nat} {a : α} (hf : .negProp i k a ∈ u.interned) :
    intern (.negProp · k a) u = (.negProp i k a, u) :=
  intern_again hu.shared hf (beq_self_eq_true k)

theorem next_again (hu : u.Canonical) {i : Nat} {f : Formula α} (hf : .next i f ∈ u.interned) :
    next f u = (.next i f, u) :=
  intern_again hu.shared hf (beq_self_eq_true f.id)

theorem operator_again (hu : u.Canonical) {i : Nat} {op : BinaryOp} {l r : Formula α}
    (hf : .binary i op l r ∈ u.interned) :
    intern (.binary · op l r) u = (.binary i op l r, u) := by
  refine intern_again hu.shared hf ?_
  simp [Formula.sameShape, Formula.same]

end Build

/-- What was made of an operator over two formulas is made of it again. -/
theorem Formula.Made.again (hu : u.Canonical) {op : BinaryOp} {l r g : Formula α}
    (h : Made op l r g) (hg : g ∈ u.interned) : Build.binary op l r u = (g, u) := by
  have hself : l.same l = true := beq_self_eq_true l.id
  cases h with
  | plain id =>
    have hfind := Build.operator_again hu hg
    cases op with
    | conj | disj =>
      have hle : l.id ≤ r.id := (hu.shaped _ hg).1 rfl
      show Build.ordered _ l r u = _
      rw [Build.ordered, if_pos hle]
      exact hfind
    | strongUntil | weakUntil => exact hfind
    | release =>
      -- a shared release is no weak until
      have hnone : Build.alternativeTo? l r = none := (hu.shaped _ hg).2 rfl
      show Build.release l r u = _
      simp only [Build.release, hnone]
      exact hfind
  | swapped id _ _ hop =>
    have hfind := Build.operator_again hu hg
    have hordered : Build.binary op l r = Build.ordered op l r := by
      cases op <;> first | rfl | cases hop
    rw [hordered, Build.ordered]
    split
    next hge =>
      -- asked for in the other order, which then is ascending as well
      have hlr : r = l := hu.left_eq_right hop hg hge
      subst hlr
      exact hfind
    next => exact hfind
  | weak id k y =>
    have hfind := Build.operator_again hu hg
    have halternative : Build.alternativeTo? l (binary k .disj y l) = some y := by
      simp only [Build.alternativeTo?, hself, if_true]
      split
      next hsame =>
        rw [hu.eq_of_id_eq (hu.left_mem hg) (hu.right_mem hg) (same_iff.1 hsame)]
      next => rfl
    show Build.release l _ u = _
    simp only [Build.release, halternative]
    exact hfind
  | weakSwapped id k y =>
    have hfind := Build.operator_again hu hg
    show Build.release l _ u = _
    simp only [Build.release, Build.alternativeTo?, hself, if_true]
    exact hfind

end Finding

/-! ## §2. One job after the other -/

variable {s : Session α}

theorem Build.bind_run {β γ : Type} {job : Build α β} {next : β → Build α γ} {b : β}
    {t : Session α} (hjob : job s = (b, t)) : (job >>= next) s = next b t := by
  show next (job s).1 (job s).2 = next b t
  rw [hjob]

/-- A job that gives something is followed by the next one. -/
theorem Build.option_bind_run {β γ : Type} {job : OptionT (Build α) β}
    {next : β → OptionT (Build α) γ} {b : β} {t : Session α} (hjob : job.run s = (some b, t)) :
    (job >>= next).run s = (next b).run t := by
  rw [OptionT.run_bind, Option.elimM]
  exact bind_run hjob

/-- The run of a job that cannot fail, among jobs that can. -/
theorem Build.option_lift_run {β : Type} {job : Build α β} {b : β} {t : Session α}
    (hjob : job s = (b, t)) : (liftM job : OptionT (Build α) β).run s = (some b, t) := by
  show (job >>= fun b => pure (some b)) s = _
  rw [bind_run hjob]
  rfl

/-! ## §3. Jobs done twice -/

/-- The job only shares more, and no shape twice.  Done again while all that it led
    to is still shared, it gives the same and changes nothing. -/
structure Build.Replays [BEq α] {β : Type} (job : Build α β) (s : Session α) : Prop where
  keeps : ∀ f ∈ s.interned, f ∈ (job s).2.interned
  unrepeated : s.Unrepeated → (job s).2.Unrepeated
  again : ∀ t : Session α, t.Unrepeated → (∀ f ∈ (job s).2.interned, f ∈ t.interned) →
    job t = ((job s).1, t)

/-- In every canonical session that shares what `t` shares, the job gives `b` and changes
    nothing. -/
def Build.Again [BEq α] {β : Type} (job : Build α β) (b : β) (t : Session α) : Prop :=
  ∀ u : Session α, u.Canonical → (∀ f ∈ t.interned, f ∈ u.interned) → job u = (b, u)

/-- What stays shared is found later on as well. -/
theorem Build.Again.later [BEq α] {β : Type} {job : Build α β} {b : β} {t u : Session α}
    (h : Again job b t) (hkeep : ∀ f ∈ t.interned, f ∈ u.interned) : Again job b u := by
  intro w hw hkeep'
  exact h w hw fun f hf => hkeep' f (hkeep f hf)

variable [BEq α]

namespace Build

theorem Replays.pure {β : Type} (b : β) : Replays (Pure.pure b) s :=
  ⟨fun _ hf => hf, fun hs => hs, fun _ _ _ => rfl⟩

/-- After a job the next one, which starts where the first one led. -/
theorem Replays.bind {β γ : Type} {job : Build α β} {next : β → Build α γ} (h : Replays job s)
    (hnext : Replays (next (job s).1) (job s).2) : Replays (job >>= next) s where
  keeps f hf := hnext.keeps f (h.keeps f hf)
  unrepeated hs := hnext.unrepeated (h.unrepeated hs)
  again t ht hkeep := by
    have hjob : job t = ((job s).1, t) := h.again t ht fun f hf => hkeep f (hnext.keeps f hf)
    show next (job t).1 (job t).2 = _
    rw [hjob]
    exact hnext.again t ht hkeep

/-- A job that may give nothing, and the next one if it gives something. -/
theorem Replays.option_bind {β γ : Type} {job : OptionT (Build α) β}
    {next : β → OptionT (Build α) γ} (h : Replays job.run s)
    (hnext : ∀ b, Replays (next b).run (job.run s).2) : Replays (job >>= next).run s := by
  rw [OptionT.run_bind, Option.elimM]
  refine h.bind ?_
  cases (job.run s).1 with
  | none => exact .pure none
  | some b => exact hnext b

/-- Replaying is not affected by the jobs around that can fail. -/
theorem Replays.option_lift {β : Type} {job : Build α β} (h : Replays job s) :
    Replays (liftM job : OptionT (Build α) β).run s := by
  show Replays (job >>= fun b => Pure.pure (some b)) s
  exact h.bind (.pure _)

/-- A job that is done again gives the same in every later session. -/
theorem Replays.found_again {β : Type} {job : Build α β} (h : Replays job s) :
    Again job (job s).1 (job s).2 :=
  fun u hu hkeep => h.again u hu.unrepeated hkeep

/-- What the job leads to is as told, and so it is if the job is done again. -/
theorem Leads.replaying [EquivBEq α] {β : Type} {job : Build α β} {P : β → Session α → Prop}
    (h : Leads Session.Canonical job s P) (hreplays : Replays job s) :
    Leads Session.Canonical job s fun b t => P b t ∧ Again job b t :=
  h.told ⟨h.result, hreplays.found_again⟩

/-- Interning forgets no formula. -/
theorem intern_keeps (make : Nat → Formula α) {f : Formula α} (hf : f ∈ s.interned) :
    f ∈ (intern make s).2.interned := by
  unfold intern
  dsimp only
  split
  next => exact hf
  next => exact List.mem_cons_of_mem _ hf

variable [EquivBEq α]

/-- Interning gives what is shared then under the shape that was asked for. -/
theorem intern_shares (make : Nat → Formula α) (s : Session α) :
    (intern make s).1 ∈ (intern make s).2.interned
      ∧ (intern make s).1.sameShape (make s.nextId) = true := by
  unfold intern
  dsimp only
  split
  next f hfind => exact ⟨List.mem_of_find?_eq_some hfind, by simpa using List.find?_some hfind⟩
  next => exact ⟨List.mem_cons_self, (make s.nextId).sameShape_self⟩

/-- An interning whose shape does not hang on the number is found again. -/
theorem intern_replays {make : Nat → Formula α}
    (hmake : ∀ (f : Formula α) (m n : Nat), f.sameShape (make m) = f.sameShape (make n))
    (s : Session α) : Replays (intern make) s where
  keeps _ hf := intern_keeps make hf
  unrepeated hs := intern_unrepeated make hs
  again t ht hkeep := by
    obtain ⟨hmem, hshape⟩ := intern_shares make s
    rw [hmake _ s.nextId t.nextId] at hshape
    exact intern_again (fun _ hf _ hg => ht.eq_of_sameShape hf hg) (hkeep _ hmem) hshape

theorem tt_replays (s : Session α) : Replays tt s :=
  intern_replays (fun f _ _ => by cases f <;> rfl) s

theorem ff_replays (s : Session α) : Replays ff s :=
  intern_replays (fun f _ _ => by cases f <;> rfl) s

theorem prop_replays (a : α) (s : Session α) : Replays (prop a) s :=
  intern_replays (fun f _ _ => by cases f <;> rfl) s

theorem next_replays (f : Formula α) (s : Session α) : Replays (next f) s :=
  intern_replays (fun f _ _ => by cases f <;> rfl) s

/-- Interning an operator replays, as interning always does. -/
theorem operator_replays (op : BinaryOp) (l r : Formula α) (s : Session α) :
    Replays (intern (.binary · op l r)) s :=
  intern_replays (fun f _ _ => by cases f <;> rfl) s

/-- Which operator is interned, and over which operands, is decided by these alone. -/
theorem binary_replays (op : BinaryOp) (l r : Formula α) (s : Session α) :
    Replays (binary op l r) s := by
  -- the order of the operands depends on their numbers only
  have hordered (op : BinaryOp) : Replays (ordered op l r) s := by
    unfold ordered
    split
    next => exact operator_replays op l r s
    next => exact operator_replays op r l s
  cases op with
  | conj => exact hordered .conj
  | disj => exact hordered .disj
  | strongUntil => exact operator_replays .strongUntil l r s
  | weakUntil => exact operator_replays .weakUntil l r s
  | release =>
    show Replays (release l r) s
    unfold release
    split
    next y _ => exact operator_replays .weakUntil y l s
    next => exact operator_replays .release l r s

/-- Every intermediate formula of a negation is found again. -/
theorem not_replays (f : Formula α) (s : Session α) : Replays (not f) s := by
  induction f generalizing s with
  | tt => exact ff_replays s
  | ff => exact tt_replays s
  | prop id a => exact intern_replays (fun f _ _ => by cases f <;> rfl) s
  | negProp id propId a => exact .pure _
  | next id f ih => exact (ih s).bind (next_replays _ _)
  | binary id op l r ihl ihr =>
    cases op with
    | conj => exact (ihl s).bind ((ihr _).bind (binary_replays .disj _ _ _))
    | disj => exact (ihl s).bind ((ihr _).bind (binary_replays .conj _ _ _))
    | strongUntil => exact (ihl s).bind ((ihr _).bind (binary_replays .release _ _ _))
    | release => exact (ihl s).bind ((ihr _).bind (binary_replays .strongUntil _ _ _))
    | weakUntil =>
      exact (ihl s).bind ((ihr _).bind
        ((binary_replays .conj _ _ _).bind (binary_replays .strongUntil _ _ _)))

end Build

/-! ## §4. Rules -/

variable [EquivBEq α]

/-- Filling a template again gives the same formula, or nothing again. -/
theorem Bindings.fill_replays (b : Bindings α) (p : Formula String) (s : Session α) :
    Build.Replays (b.fill p).run s := by
  induction p generalizing s with
  | prop id name => exact .pure (b.lookup name)
  | tt i => exact (Build.tt_replays s).option_lift
  | ff i => exact (Build.ff_replays s).option_lift
  | negProp i k name =>
    have hlookup : Build.Replays
        (OptionT.mk (pure (b.lookup name)) : OptionT (Build α) (Formula α)).run s :=
      .pure (b.lookup name)
    exact hlookup.option_bind fun f => (Build.not_replays f _).option_lift
  | next i p ih => exact (ih s).option_bind fun f => (Build.next_replays f _).option_lift
  | binary i op p q ihp ihq =>
    refine (ihp s).option_bind fun f => (ihq _).option_bind fun g => ?_
    exact (Build.binary_replays op f g _).option_lift

namespace Rule

/-- Whether the rule matches does not depend on the session. -/
theorem apply_replays (rule : Rule) (f : Formula α) (s : Session α) :
    Build.Replays (rule.apply f) s := by
  unfold apply
  split
  next => exact .pure f
  next b _ => exact (b.fill_replays rule.replacement s).bind (.pure _)

/-- Applying the rules in order replays. -/
theorem applyAll_replays (rules : List Rule) (f : Formula α) (s : Session α) :
    Build.Replays (applyAll rules f) s := by
  induction rules generalizing s f with
  | nil => exact .pure f
  | cons rule rules ih => exact (rule.apply_replays f s).bind (ih _ _)

end Rule

/-! ## §5. Passes -/

omit [EquivBEq α] in
/-- What is noted for a number depends on the job only. -/
theorem Memo.recall_replays (id : Nat) {memo : Memo (Formula α)}
    {compute : StateT (Memo (Formula α)) (Build α) (Formula α)}
    (hcompute : Build.Replays (compute memo) s) :
    Build.Replays (Memo.recall id compute memo) s := by
  rw [recall_run]
  split
  next g _ => exact .pure (g, memo)
  next => exact hcompute.bind (.pure _)

namespace Rule

/-- Building a node, trying the rules on it, and handing on what is noted. -/
theorem rebuilt_replays (rules : List Rule) (memo : Memo (Formula α))
    {job : Build α (Formula α)} (h : Build.Replays job s) :
    Build.Replays ((job >>= applyAll rules) >>= fun g => pure (g, memo)) s :=
  (h.bind (applyAll_replays rules _ _)).bind (.pure _)

/-- Rewriting a formula from its leaves up replays, whatever has been memoized. -/
theorem visit_replays (rules : List Rule) (f : Formula α) (memo : Memo (Formula α))
    (s : Session α) : Build.Replays ((rebuilding rules).visit f memo) s := by
  induction f generalizing s memo with
  | tt | ff | prop | negProp =>
    exact Memo.recall_replays _ (rebuilt_replays rules memo (.pure _))
  | next id f ih =>
    -- the turn of the fold, written as one sequence
    refine Memo.recall_replays id ?_
    show Build.Replays ((rebuilding rules).visit f memo >>= fun p =>
      (Build.next p.1 >>= applyAll rules) >>= fun g => pure (g, p.2)) s
    exact (ih memo s).bind (rebuilt_replays rules _ (Build.next_replays _ _))
  | binary id op l r ihl ihr =>
    refine Memo.recall_replays id ?_
    show Build.Replays ((rebuilding rules).visit l memo >>= fun p =>
      (rebuilding rules).visit r p.2 >>= fun q =>
        (Build.binary op p.1 q.1 >>= applyAll rules) >>= fun g => pure (g, q.2)) s
    refine (ihl memo s).bind ((ihr _ _).bind ?_)
    exact rebuilt_replays rules _ (Build.binary_replays op _ _ _)

/-- Passing over a formula again gives the same result and builds nothing. -/
theorem pass_replays (rules : List Rule) (f : Formula α) (s : Session α) :
    Build.Replays (pass rules f) s := by
  show Build.Replays ((rebuilding rules).visit f [] >>= fun p => pure p.1) s
  exact (visit_replays rules f [] s).bind (.pure _)

end Rule
end LinearTime
