/-
  LinearTime.Proofs.Branches — what a branch says when it is completed.

  While a branch is treated, every formula that holds now has an alternative
  that the branch either guarantees or still has on its list (`Proper`).  When
  nothing is left on the list the guarantees remain: a completed branch is a
  *label*, a set of formulas for this position and one for the next.

  Main results:
    * `Branch.mem_treat` — treating a formula is taking one of its alternatives.
    * `Branch.Proper.of_treat` — what treating a formula keeps.
    * `Branch.Completes` — the labels a branch comes to.
    * `Branch.Proper.labels` — a label satisfies the expansion laws.
-/

import LinearTime.Proofs.Expansions

namespace LinearTime

variable {α : Type}

namespace Branch

/-! ## §1. Alternatives taken -/

/-- Asks for all that an alternative demands. -/
def ask (b : Branch α) (a : Alternative α) : Branch α :=
  a.later.foldl postpone (a.now.foldl schedule b)

/-- The alternatives open to a branch when `f` is treated. -/
inductive Offers (b : Branch α) (f : Formula α) : Alternative α → Prop
  | literal (hf : f.isLiteral = true) (h : b.refutes f = false) : Offers b f {}
  | guaranteed (hf : f.isLiteral = false) (h : f.guaranteedBy b.now b.later = true) :
    Offers b f {}
  | expanded {a : Alternative α} (hf : f.isLiteral = false)
    (h : f.guaranteedBy b.now b.later = false) (ha : a ∈ f.alternatives) : Offers b f a

variable {U : List (Formula α)} {b b' : Branch α} {f g : Formula α} {a : Alternative α}

/-- A literal ends the branch it contradicts and is settled on any other. -/
theorem treat_of_literal (hf : f.isLiteral = true) :
    b.treat f = if b.refutes f then [] else [b.settle f] := by
  unfold treat
  rw [if_pos hf]

/-- A formula that the label guarantees is settled without asking for anything. -/
theorem treat_of_guaranteed (hf : f.isLiteral = false)
    (hg : f.guaranteedBy b.now b.later = true) : b.treat f = [b.settle f] := by
  unfold treat
  rw [hf, hg]
  rfl

/-- Any other formula is settled once for each of its alternatives. -/
theorem treat_of_expanded (hf : f.isLiteral = false)
    (hg : f.guaranteedBy b.now b.later = false) :
    b.treat f = f.alternatives.map (b.settle f).ask := by
  unfold treat
  rw [hf, hg]
  cases f with
  | tt | ff | prop | negProp => cases hf
  | next => rfl
  | binary id op l r => cases op <;> rfl

/-- A branch offers a literal as it is, unless it refutes it. -/
theorem offers_of_literal (hf : f.isLiteral = true) :
    b.Offers f a ↔ b.refutes f = false ∧ a = {} := by
  constructor
  · intro h
    cases h with
    | literal _ hr => exact ⟨hr, rfl⟩
    | guaranteed hf' | expanded hf' => exact Bool.noConfusion (hf.symm.trans hf')
  · rintro ⟨hr, rfl⟩
    exact .literal hf hr

/-- A branch offers what is guaranteed as it is. -/
theorem offers_of_guaranteed (hf : f.isLiteral = false)
    (hg : f.guaranteedBy b.now b.later = true) : b.Offers f a ↔ a = {} := by
  constructor
  · intro h
    cases h with
    | literal hf' => exact Bool.noConfusion (hf'.symm.trans hf)
    | guaranteed => rfl
    | expanded _ hg' => exact Bool.noConfusion (hg.symm.trans hg')
  · rintro rfl
    exact .guaranteed hf hg

/-- A branch offers all alternatives of any other formula. -/
theorem offers_of_expanded (hf : f.isLiteral = false)
    (hg : f.guaranteedBy b.now b.later = false) : b.Offers f a ↔ a ∈ f.alternatives := by
  constructor
  · intro h
    cases h with
    | literal hf' => exact Bool.noConfusion (hf'.symm.trans hf)
    | guaranteed _ hg' => exact Bool.noConfusion (hg'.symm.trans hg)
    | expanded _ _ ha => exact ha
  · exact .expanded hf hg

/-- Treating a formula is counting it among those of now and taking one of the
    alternatives. -/
theorem mem_treat : b' ∈ b.treat f ↔ ∃ a, b.Offers f a ∧ b' = (b.settle f).ask a := by
  cases hf : f.isLiteral with
  | true =>
    simp only [treat_of_literal hf, offers_of_literal hf]
    cases b.refutes f <;> simp [ask]
  | false =>
    cases hg : f.guaranteedBy b.now b.later with
    | true => simp [treat_of_guaranteed hf hg, offers_of_guaranteed hf hg, ask]
    | false =>
      simp only [treat_of_expanded hf hg, offers_of_expanded hf hg, List.mem_map]
      exact exists_congr fun a => and_congr_right fun _ => eq_comm

/-- Alternatives ask for operands now, for operands and the formula next. -/
theorem Offers.mem_operands (h : b.Offers f a) :
    (∀ g ∈ a.now, g ∈ f.operands) ∧ ∀ g ∈ a.later, g ∈ f.operands ∨ g = f := by
  cases h with
  | literal | guaranteed =>
    exact ⟨fun g hg => absurd hg List.not_mem_nil, fun g hg => absurd hg List.not_mem_nil⟩
  | expanded _ _ ha => exact ⟨f.now_mem_operands a ha, f.later_mem_operands a ha⟩

/-! ## §2. Sets of a branch -/

/-- The formulas of a branch are of the family. -/
structure Within (b : Branch α) (U : List (Formula α)) : Prop where
  todo : b.todo.Within U
  now : b.now.Within U
  later : b.later.Within U

section Sets

variable (hU : Formula.Family U)
include hU

/-- Scheduling a formula adds it to what is left to do, unless it is in the label. -/
theorem mem_schedule (hb : b.Within U) (hg : g ∈ U) :
    (b.schedule g).Within U ∧ (b.schedule g).now = b.now ∧ (b.schedule g).later = b.later
      ∧ (b.schedule g).origin = b.origin
      ∧ ∀ h, h ∈ (b.schedule g).todo ↔ h ∈ b.todo ∨ (h = g ∧ h ∉ b.now) := by
  unfold schedule
  -- what is in the label already is not asked for again
  by_cases hc : b.now.contains g = true
  · rw [if_pos hc]
    refine ⟨hb, rfl, rfl, rfl, fun h => ⟨.inl, ?_⟩⟩
    rintro (hh | ⟨rfl, hn⟩)
    · exact hh
    · exact absurd ((OrderedSet.contains_iff_mem hU.injOn hb.now hg).1 hc) hn
  · rw [if_neg hc]
    refine ⟨⟨hb.todo.insert hg, hb.now, hb.later⟩, rfl, rfl, rfl, fun h => ?_⟩
    show h ∈ b.todo.insert g ↔ _
    rw [OrderedSet.mem_insert_iff hU.injOn hb.todo hg, or_comm]
    refine or_congr_right ⟨?_, And.left⟩
    rintro rfl
    exact ⟨rfl, fun hn => hc ((OrderedSet.contains_iff_mem hU.injOn hb.now hg).2 hn)⟩

/-- Scheduling several formulas adds those that are not in the label. -/
theorem mem_foldl_schedule (gs : List (Formula α)) (hb : b.Within U) (hgs : ∀ g ∈ gs, g ∈ U) :
    (gs.foldl schedule b).Within U ∧ (gs.foldl schedule b).now = b.now
      ∧ (gs.foldl schedule b).later = b.later ∧ (gs.foldl schedule b).origin = b.origin
      ∧ ∀ h, h ∈ (gs.foldl schedule b).todo ↔ h ∈ b.todo ∨ (h ∈ gs ∧ h ∉ b.now) := by
  induction gs generalizing b with
  | nil => exact ⟨hb, rfl, rfl, rfl, fun h => by simp⟩
  | cons g gs ih =>
    obtain ⟨hwithin, hnow, hlater, horigin, htodo⟩ := mem_schedule hU hb (hgs g List.mem_cons_self)
    obtain ⟨hwithin', hnow', hlater', horigin', htodo'⟩ :=
      ih hwithin fun h hh => hgs h (List.mem_cons_of_mem _ hh)
    rw [List.foldl_cons]
    refine ⟨hwithin', hnow'.trans hnow, hlater'.trans hlater, horigin'.trans horigin, fun h => ?_⟩
    rw [htodo', htodo, hnow, List.mem_cons]
    tauto

/-- Postponing formulas adds them to what has to hold next. -/
theorem mem_foldl_postpone (gs : List (Formula α)) (hb : b.Within U) (hgs : ∀ g ∈ gs, g ∈ U) :
    (gs.foldl postpone b).Within U ∧ (gs.foldl postpone b).now = b.now
      ∧ (gs.foldl postpone b).todo = b.todo ∧ (gs.foldl postpone b).origin = b.origin
      ∧ ∀ h, h ∈ (gs.foldl postpone b).later ↔ h ∈ b.later ∨ h ∈ gs := by
  induction gs generalizing b with
  | nil => exact ⟨hb, rfl, rfl, rfl, fun h => by simp⟩
  | cons g gs ih =>
    have hg : g ∈ U := hgs g List.mem_cons_self
    obtain ⟨hwithin, hnow, htodo, horigin, hlater⟩ :=
      ih (b := b.postpone g) ⟨hb.todo, hb.now, hb.later.insert hg⟩
        fun h hh => hgs h (List.mem_cons_of_mem _ hh)
    rw [List.foldl_cons]
    refine ⟨hwithin, hnow, htodo, horigin, fun h => ?_⟩
    rw [hlater, List.mem_cons]
    -- one more formula, then those of the rest
    show h ∈ b.later.insert g ∨ _ ↔ _
    rw [OrderedSet.mem_insert_iff hU.injOn hb.later hg]
    tauto

/-- What a branch has after taking an alternative. -/
theorem mem_ask (hb : b.Within U) (hnow : ∀ g ∈ a.now, g ∈ U) (hlater : ∀ g ∈ a.later, g ∈ U) :
    (b.ask a).Within U ∧ (b.ask a).now = b.now ∧ (b.ask a).origin = b.origin
      ∧ (∀ h, h ∈ (b.ask a).todo ↔ h ∈ b.todo ∨ (h ∈ a.now ∧ h ∉ b.now))
      ∧ ∀ h, h ∈ (b.ask a).later ↔ h ∈ b.later ∨ h ∈ a.later := by
  obtain ⟨hw₁, hn₁, hl₁, ho₁, ht₁⟩ := mem_foldl_schedule hU a.now hb hnow
  obtain ⟨hw₂, hn₂, ht₂, ho₂, hl₂⟩ := mem_foldl_postpone hU a.later hw₁ hlater
  refine ⟨hw₂, hn₂.trans hn₁, ho₂.trans ho₁, fun h => ?_, fun h => ?_⟩
  · show h ∈ (a.later.foldl postpone (a.now.foldl schedule b)).todo ↔ _
    rw [ht₂, ht₁]
  · show h ∈ (a.later.foldl postpone (a.now.foldl schedule b)).later ↔ _
    rw [hl₂, hl₁]

end Sets

/-! ## §3. Proper branches -/

/-- Guaranteed already, or still to be treated. -/
def Promises (b : Branch α) (g : Formula α) : Prop :=
  g ∈ b.todo ∨ g.guaranteedBy b.now b.later = true

/-- What holds of a branch that was started for the formulas of `asked`. -/
structure Proper (U : List (Formula α)) (asked : FormulaSet α) (b : Branch α) : Prop where
  within : b.Within U
  /-- Nothing is treated twice. -/
  untreated : ∀ f ∈ b.todo, f ∉ b.now
  asked : ∀ f ∈ asked, f ∈ b.todo ∨ f ∈ b.now
  expanded : ∀ f ∈ b.now, f.Expands b.Promises (· ∈ b.later)
  consistent : ∀ i j a c, .prop i a ∈ b.now → .negProp j i c ∉ b.now
  /-- What is postponed comes from something that is not older. -/
  postponed : ∀ g ∈ b.later, ∃ f ∈ b.now, g.id ≤ f.id

/-- The constant false has no alternative. -/
theorem Proper.ff_not_mem {asked : FormulaSet α} (h : b.Proper U asked) (id : Nat) :
    .ff id ∉ b.now := by
  intro hmem
  obtain ⟨a, ha, -⟩ := h.expanded _ hmem
  exact absurd ha List.not_mem_nil

/-- The branch that starts a node is proper. -/
theorem Proper.start {asked : FormulaSet α} (h : asked.Within U) (origin : Nat) :
    (Tableau.successor origin asked).Proper U asked := by
  have hnone (f : Formula α) : f ∉ (OrderedSet.empty : FormulaSet α) := OrderedSet.not_mem_empty f
  refine ⟨⟨h, OrderedSet.within_empty, OrderedSet.within_empty⟩, fun f _ => hnone f,
    fun f hf => .inl hf, ?_, ?_, ?_⟩
  · intro f hf
    exact absurd hf (hnone f)
  · intro i j a c hp
    exact absurd hp (hnone _)
  · intro g hg
    exact absurd hg (hnone g)

/-- The branch after `f` was taken off its list, counted among the formulas of
    now, and an alternative was taken. -/
structure Treated (U : List (Formula α)) (b : Branch α) (f : Formula α) (todo : FormulaSet α)
    (a : Alternative α) (b' : Branch α) : Prop where
  within : b'.Within U
  origin : b'.origin = b.origin
  now : b'.now = b.now.insert f
  mem_now : ∀ g, g ∈ b'.now ↔ g = f ∨ g ∈ b.now
  mem_todo : ∀ g, g ∈ b'.todo ↔ g ∈ todo ∨ (g ∈ a.now ∧ g ∉ b'.now)
  mem_later : ∀ g, g ∈ b'.later ↔ g ∈ b.later ∨ g ∈ a.later

section Treating

variable {asked todo : FormulaSet α}

/-- What is taken off the list is of the family and was not treated before. -/
theorem Proper.popped (hb : b.Proper U asked) (hpop : b.todo.popLeast? = some (f, todo)) :
    f ∈ U ∧ f ∉ b.now ∧ ∀ g ∈ todo, g ∈ U ∧ g ∉ b.now ∧ f.id < g.id := by
  obtain ⟨hmem, hlt⟩ := OrderedSet.popLeast?_eq_some hpop
  have hf : f ∈ b.todo := (hmem f).2 (.inl rfl)
  refine ⟨hb.within.todo f hf, hb.untreated f hf, fun g hg => ?_⟩
  have hg' : g ∈ b.todo := (hmem g).2 (.inr hg)
  exact ⟨hb.within.todo g hg', hb.untreated g hg', hlt g hg⟩

/-- Treating a formula keeps every promise of the branch. -/
theorem Treated.promises {f : Formula α} (h : Treated U b f todo a b')
    (hpop : b.todo.popLeast? = some (f, todo)) (hg : b.Promises g) : b'.Promises g := by
  rcases hg with hg | hg
  · rcases ((OrderedSet.popLeast?_eq_some hpop).1 g).1 hg with rfl | hg
    · refine .inr (Formula.guaranteedBy_of_contains ?_)
      exact OrderedSet.contains_eq_true_iff.2 ⟨g, (h.mem_now g).2 (.inl rfl), rfl⟩
    · exact .inl ((h.mem_todo g).2 (.inl hg))
  · refine .inr (g.guaranteedBy_mono ?_ ?_ hg)
    · exact fun k => OrderedSet.contains_mono fun x hx => (h.mem_now x).2 (.inr hx)
    · exact fun k => OrderedSet.contains_mono fun x hx => (h.mem_later x).2 (.inl hx)

/-- An alternative that was taken is promised. -/
theorem Treated.promises_of_mem (h : Treated U b f todo a b') (hg : g ∈ a.now) :
    b'.Promises g := by
  by_cases hn : g ∈ b'.now
  · exact .inr (Formula.guaranteedBy_of_contains
      (OrderedSet.contains_eq_true_iff.2 ⟨g, hn, rfl⟩))
  · exact .inl ((h.mem_todo g).2 (.inr ⟨hg, hn⟩))

variable (hU : Formula.Family U)
include hU

/-- On a proper branch, settling a formula and asking for an alternative it offers treats it. -/
theorem Proper.treated (hb : b.Proper U asked) (hpop : b.todo.popLeast? = some (f, todo))
    (ho : ({ b with todo } : Branch α).Offers f a) :
    Treated U b f todo a ((({ b with todo } : Branch α).settle f).ask a) := by
  obtain ⟨hf, hfresh, htodo⟩ := hb.popped hpop
  obtain ⟨hnow, hlater⟩ := ho.mem_operands
  have hwithin : (({ b with todo } : Branch α).settle f).Within U :=
    ⟨fun g hg => (htodo g hg).1, hb.within.now.insert hf, hb.within.later⟩
  -- operands belong to the closure, as the formula does
  obtain ⟨hw, hn, horigin, ht, hl⟩ := mem_ask hU hwithin (a := a)
    (fun g hg => hU.operand_mem f hf g (hnow g hg))
    fun g hg => hU.mem_of_operand_or_eq hf (hlater g hg)
  refine ⟨hw, horigin, hn, fun g => ?_, fun g => ?_, hl⟩
  · rw [hn]
    exact OrderedSet.mem_insert_iff hU.injOn hb.within.now hf
  · rw [hn]
    exact ht g

/-- The formula that was treated has an alternative that is promised. -/
theorem Proper.expands_treated (hb : b.Proper U asked)
    (hpop : b.todo.popLeast? = some (f, todo))
    (ho : ({ b with todo } : Branch α).Offers f a) (h : Treated U b f todo a b') :
    f.Expands b'.Promises (· ∈ b'.later) := by
  obtain ⟨hf, hfresh, -⟩ := hb.popped hpop
  cases ho with
  | literal hl hr =>
    cases f with
    | ff id => cases hr
    | next | binary => cases hl
    | tt | prop | negProp =>
      -- The one alternative of a literal asks for nothing.
      refine ⟨{}, List.mem_singleton.2 rfl, ?_, ?_⟩
      · exact fun g hg => absurd hg List.not_mem_nil
      · exact fun g hg => absurd hg List.not_mem_nil
  | guaranteed hl hg =>
    -- It is not in the label yet, so what guarantees it are its parts.
    rcases (Formula.guaranteedBy_iff hl).1 hg with hc | he
    · exact absurd ((OrderedSet.contains_iff_mem hU.injOn hb.within.now hf).1 hc) hfresh
    · refine he.mono (fun g hg hguar => ?_) fun g hg hc => ?_
      · exact h.promises hpop (.inr hguar)
      · have hgU : g ∈ U := hU.mem_of_operand_or_eq hf hg
        exact (h.mem_later g).2
          (.inl ((OrderedSet.contains_iff_mem hU.injOn hb.within.later hgU).1 hc))
  | expanded hl _ ha =>
    exact ⟨a, ha, fun g hg => h.promises_of_mem hg,
      fun g hg => (h.mem_later g).2 (.inr hg)⟩

omit hU in
/-- A literal is not treated where something contradicts it. -/
theorem Offers.not_contradicts (ho : b.Offers f a) (hl : f.isLiteral = true)
    (hff : ∀ id, f ≠ .ff id) (hg : g ∈ b.now) : g.contradicts f = false := by
  by_contra hc
  have hany : b.now.toList.any (·.contradicts f) = true :=
    List.any_eq_true.2 ⟨g, hg, Bool.not_eq_false _ ▸ hc⟩
  obtain ⟨hr, -⟩ := (offers_of_literal hl).1 ho
  cases f with
  | ff id => exact hff id rfl
  | _ => exact absurd (hany.symm.trans hr) (by decide)

/-- Treating a formula keeps a branch proper. -/
theorem Proper.of_treated (hb : b.Proper U asked) (hpop : b.todo.popLeast? = some (f, todo))
    (ho : ({ b with todo } : Branch α).Offers f a) (h : Treated U b f todo a b') :
    b'.Proper U asked := by
  obtain ⟨hf, hfresh, htodo⟩ := hb.popped hpop
  obtain ⟨hmem, hlt⟩ := OrderedSet.popLeast?_eq_some hpop
  exact {
    within := h.within
    untreated := by
      intro g hg hn
      rcases (h.mem_todo g).1 hg with hg | ⟨-, hn'⟩
      · obtain ⟨-, hold, hfg⟩ := htodo g hg
        rcases (h.mem_now g).1 hn with rfl | hn
        · exact absurd hfg (lt_irrefl _)
        · exact hold hn
      · exact hn' hn
    asked := by
      intro g hg
      rcases hb.asked g hg with hg | hg
      · rcases (hmem g).1 hg with rfl | hg
        · exact .inr ((h.mem_now g).2 (.inl rfl))
        · exact .inl ((h.mem_todo g).2 (.inl hg))
      · exact .inr ((h.mem_now g).2 (.inr hg))
    expanded := by
      intro g hg
      rcases (h.mem_now g).1 hg with rfl | hg
      · exact hb.expands_treated hU hpop ho h
      · exact (hb.expanded g hg).mono (fun k _ hk => h.promises hpop hk)
          fun k _ hk => (h.mem_later k).2 (.inl hk)
    consistent := by
      intro i j x y hp hn
      -- one of the two was there when the other one was treated
      rcases (h.mem_now _).1 hp with rfl | hp
      · rcases (h.mem_now _).1 hn with hn | hn
        · cases hn
        · have hnot := ho.not_contradicts rfl (by simp) hn
          simp [Formula.contradicts, Formula.id] at hnot
      · rcases (h.mem_now _).1 hn with rfl | hn
        · have hnot := ho.not_contradicts rfl (by simp) hp
          simp [Formula.contradicts, Formula.id] at hnot
        · exact hb.consistent i j x y hp hn
    postponed := by
      intro g hg
      rcases (h.mem_later g).1 hg with hg | hg
      · obtain ⟨k, hk, hle⟩ := hb.postponed g hg
        exact ⟨k, (h.mem_now k).2 (.inr hk), hle⟩
      · refine ⟨f, (h.mem_now f).2 (.inl rfl), ?_⟩
        rcases ho.mem_operands.2 g hg with hop | rfl
        · exact le_of_lt (hU.operand_lt f hf g hop)
        · exact le_refl _ }

end Treating

/-! ## §4. Labels -/

/-- The formulas of this position and of the next one that a branch comes to. -/
inductive Completes : Branch α → FormulaSet α → FormulaSet α → Prop
  | done {b : Branch α} (h : b.todo.popLeast? = none) : Completes b b.now b.later
  | treat {b b' : Branch α} {f : Formula α} {todo now later : FormulaSet α}
    (hpop : b.todo.popLeast? = some (f, todo)) (h' : b' ∈ ({ b with todo } : Branch α).treat f)
    (h : Completes b' now later) : Completes b now later

/-- The branch, on the way from another node. -/
def withOrigin (b : Branch α) (origin : Nat) : Branch α := { b with origin }

/-- The origin of a branch plays no part in how a formula is treated. -/
theorem withOrigin_ask (b : Branch α) (f : Formula α) (a : Alternative α) (origin : Nat) :
    ((b.withOrigin origin).settle f).ask a = ((b.settle f).ask a).withOrigin origin := by
  -- scheduling looks at what is in the branch, never at where it comes from
  have hschedule (gs : List (Formula α)) : ∀ b : Branch α,
      gs.foldl schedule (b.withOrigin origin) = (gs.foldl schedule b).withOrigin origin := by
    induction gs with
    | nil => exact fun b => rfl
    | cons g gs ih =>
      intro b
      have hg : (b.withOrigin origin).schedule g = (b.schedule g).withOrigin origin := by
        unfold schedule
        show (if b.now.contains g = true then _ else _) = _
        split <;> rfl
      rw [List.foldl_cons, List.foldl_cons, hg, ih]
  have hpostpone (gs : List (Formula α)) : ∀ b : Branch α,
      gs.foldl postpone (b.withOrigin origin) = (gs.foldl postpone b).withOrigin origin := by
    induction gs with
    | nil => exact fun b => rfl
    | cons g gs ih => exact fun b => ih (b.postpone g)
  unfold ask
  rw [← hpostpone, ← hschedule]
  rfl

/-- Where a branch comes from has no influence on what it comes to. -/
theorem Completes.withOrigin {b : Branch α} {now later : FormulaSet α}
    (h : b.Completes now later) (origin : Nat) : (b.withOrigin origin).Completes now later := by
  induction h with
  | @done b h => exact .done (b := b.withOrigin origin) h
  | @treat b b' f todo now later hpop h' _ ih =>
    obtain ⟨a, ho, rfl⟩ := mem_treat.1 h'
    refine .treat (b := b.withOrigin origin) hpop (mem_treat.2 ⟨a, ?_, ?_⟩) ih
    · cases ho with
      | literal hf hr => exact .literal hf hr
      | guaranteed hf hg => exact .guaranteed hf hg
      | expanded hf hg ha => exact .expanded hf hg ha
    · exact (withOrigin_ask { b with todo } f a origin).symm

end Branch

/-- The sets that a branch started for `asked` may come to. -/
def Completion (asked now later : FormulaSet α) : Prop :=
  (Tableau.successor 0 asked).Completes now later

/-- Completions of a set are what its starting branch completes to, from any origin. -/
theorem completion_iff {asked now later : FormulaSet α} (origin : Nat) :
    Completion asked now later ↔ (Tableau.successor origin asked).Completes now later :=
  ⟨fun h => Branch.Completes.withOrigin h origin, fun h => Branch.Completes.withOrigin h 0⟩

/-- What a pair of sets has to be to label a step from a position at which
    `asked` is asked for. -/
structure Labels (U : List (Formula α)) (asked now later : FormulaSet α) : Prop where
  now_within : now.Within U
  later_within : later.Within U
  asked : ∀ f ∈ asked, f ∈ now
  expanded : ∀ f ∈ now, f.Expands (fun g => g.guaranteedBy now later = true) (· ∈ later)
  consistent : ∀ i j a c, .prop i a ∈ now → .negProp j i c ∉ now

/-- No label holds falsity. -/
theorem Labels.ff_not_mem {U : List (Formula α)} {asked now later : FormulaSet α}
    (h : Labels U asked now later) (id : Nat) : .ff id ∉ now := by
  intro hmem
  obtain ⟨a, ha, -⟩ := h.expanded _ hmem
  exact absurd ha List.not_mem_nil

/-- What a proper branch completes to is a label of the set it was asked for. -/
theorem Branch.Proper.labels {U : List (Formula α)} (hU : Formula.Family U) {b : Branch α}
    {asked now later : FormulaSet α} (hb : b.Proper U asked) (h : b.Completes now later) :
    Labels U asked now later := by
  induction h with
  | @done b hnone =>
    have hnone := OrderedSet.popLeast?_eq_none_iff.1 hnone
    refine ⟨hb.within.now, hb.within.later, fun f hf => ?_, fun f hf => ?_, hb.consistent⟩
    · exact (hb.asked f hf).resolve_left (hnone f)
    · exact (hb.expanded f hf).mono (fun g _ hg => hg.resolve_left (hnone g)) fun g _ hg => hg
  | treat hpop h' _ ih =>
    obtain ⟨a, ho, rfl⟩ := mem_treat.1 h'
    exact ih (hb.of_treated hU hpop ho (hb.treated hU hpop ho))

/-- Completions are labels. -/
theorem Completion.labels {U : List (Formula α)} (hU : Formula.Family U)
    {asked now later : FormulaSet α} (hasked : asked.Within U)
    (h : Completion asked now later) : Labels U asked now later :=
  (Branch.Proper.start hasked 0).labels hU h

end LinearTime
