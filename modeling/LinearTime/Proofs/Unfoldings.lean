/-
  LinearTime.Proofs.Unfoldings — truth and infinite sequences of labels.

  An unfolding is an infinite sequence of labels, each for what the one before
  it postponed.  It is *fair* if no until is pending for ever.

  A fair unfolding whose literals are true on a word proves all its formulas
  true there: an until that is never fulfilled would be pending for ever, and
  release and weak until are the greatest solutions of their expansion laws.

  Conversely a word guides the treatment of a branch whose formulas are true:
  an alternative that is true is taken, and of an until whose right operand is
  true the one that fulfils it.  An until that was asked for from the start of a
  branch is fulfilled as soon as possible: it is treated before any formula that
  could postpone it, for such formulas are younger.  So no until stays pending.

  Main results:
    * `Unfolding.holds` — fair unfoldings prove their formulas.
    * `exists_prompt_completion` — a word guides a branch.
    * `exists_fair_unfolding` — and an unfolding.
-/

import LinearTime.Proofs.Branches

namespace LinearTime

variable {α : Type}

/-- What is asked for at a position: at first the start, then what was postponed
    to it. -/
def askedAt (start : FormulaSet α) (later : Nat → FormulaSet α) : Nat → FormulaSet α
  | 0 => start
  | i + 1 => later i

/-- Every label completes a branch for what is asked for at its position. -/
def Unfolding (start : FormulaSet α) (now later : Nat → FormulaSet α) : Prop :=
  ∀ i, Completion (askedAt start later i) (now i) (later i)

/-- No until of the family is pending for ever. -/
def Fair (U : List (Formula α)) (now later : Nat → FormulaSet α) : Prop :=
  ∀ u ∈ U, u.isStrongUntil = true → ∀ n, ∃ i, n ≤ i ∧ Tableau.isPending (now i) (later i) u = false

variable {U : List (Formula α)} {start : FormulaSet α} {now later : Nat → FormulaSet α}
  {v : Nat → α → Prop} {f : Formula α} {i : Nat}

/-! ## §1. Unfoldings prove their formulas -/

section Soundness

variable (hU : Formula.Family U)
include hU

/-- A guaranteed formula over operands has an alternative that is guaranteed. -/
theorem Labels.expands {asked now later : FormulaSet α} (h : Labels U asked now later) (hf : f ∈ U)
    (hl : f.isLiteral = false) (hg : f.guaranteedBy now later = true) :
    f.Expands (fun g => g.guaranteedBy now later = true) (· ∈ later) := by
  rcases (Formula.guaranteedBy_iff hl).1 hg with hc | he
  · exact h.expanded f ((OrderedSet.contains_iff_mem hU.injOn h.now_within hf).1 hc)
  · refine he.mono (fun g _ hg => hg) fun g hg hc => ?_
    have hgU : g ∈ U := hU.mem_of_operand_or_eq hf hg
    exact (OrderedSet.contains_iff_mem hU.injOn h.later_within hgU).1 hc

theorem Unfolding.labels (h : Unfolding start now later) (hstart : start.Within U) (i : Nat) :
    Labels U (askedAt start later i) (now i) (later i) := by
  induction i with
  | zero => exact (h 0).labels hU hstart
  | succ i ih => exact (h (i + 1)).labels hU ih.later_within

/-- What is postponed holds in the next position. -/
theorem Unfolding.mem_now (h : Unfolding start now later) (hstart : start.Within U)
    (hf : f ∈ later i) : f ∈ now (i + 1) :=
  (h.labels hU hstart (i + 1)).asked f hf

omit hU in
theorem guaranteedBy_of_mem {now later : FormulaSet α} (hf : f ∈ now) :
    f.guaranteedBy now later = true :=
  Formula.guaranteedBy_of_contains (OrderedSet.contains_eq_true_iff.2 ⟨f, hf, rfl⟩)

/-- A guaranteed until is fulfilled some time. -/
theorem Unfolding.fulfilled (h : Unfolding start now later) (hstart : start.Within U)
    (hfair : Fair U now later) {id : Nat} {l r : Formula α}
    (hu : .binary id .strongUntil l r ∈ U)
    (hg : (Formula.binary id .strongUntil l r).guaranteedBy (now i) (later i) = true) :
    ∃ d, r.guaranteedBy (now (i + d)) (later (i + d)) = true := by
  by_contra hnever
  push Not at hnever
  -- otherwise it is postponed again and again, and so pending
  have hlater (d : Nat) :
      (Formula.binary id .strongUntil l r).guaranteedBy (now (i + d)) (later (i + d)) = true
        → .binary id .strongUntil l r ∈ later (i + d) := by
    intro hd
    have he := (h.labels hU hstart (i + d)).expands hU hu rfl hd
    rcases (Formula.expands_strongUntil ..).1 he with hr | ⟨-, hlater⟩
    · exact absurd hr (hnever d)
    · exact hlater
  have hall (d : Nat) :
      (Formula.binary id .strongUntil l r).guaranteedBy (now (i + d)) (later (i + d)) = true := by
    induction d with
    | zero => exact hg
    | succ d ih => exact guaranteedBy_of_mem (h.mem_now hU hstart (hlater d ih))
  obtain ⟨k, hk, hpending⟩ := hfair _ hu rfl (i + 1)
  obtain ⟨d, rfl⟩ := Nat.exists_eq_add_of_le hk
  have hmem : Formula.binary id .strongUntil l r ∈ now (i + 1 + d) := by
    rw [show i + 1 + d = i + d + 1 by omega]
    exact h.mem_now hU hstart (hlater d (hall d))
  have hr : r.guaranteedBy (now (i + 1 + d)) (later (i + 1 + d)) = false := by
    rw [show i + 1 + d = i + (d + 1) by omega]
    exact Bool.eq_false_iff.2 (hnever (d + 1))
  have hc : (now (i + 1 + d)).contains (.binary id .strongUntil l r) = true :=
    OrderedSet.contains_eq_true_iff.2 ⟨_, hmem, rfl⟩
  simp [Tableau.isPending, hc, hr] at hpending

/-- The expansion laws along an unfolding. -/
theorem Unfolding.expands (h : Unfolding start now later) (hstart : start.Within U) (hf : f ∈ U)
    (hl : f.isLiteral = false) (hg : f.guaranteedBy (now i) (later i) = true) :
    f.Expands (fun g => g.guaranteedBy (now i) (later i) = true)
      (fun g => g.guaranteedBy (now (i + 1)) (later (i + 1)) = true) := by
  refine ((h.labels hU hstart i).expands hU hf hl hg).mono (fun g _ hg => hg) fun g _ hg => ?_
  exact guaranteedBy_of_mem (h.mem_now hU hstart hg)

/-- A fair unfolding whose literals are true proves what it guarantees. -/
theorem Unfolding.holds (h : Unfolding start now later) (hstart : start.Within U)
    (hfair : Fair U now later)
    (hliterals : ∀ i, ∀ f ∈ now i, f.isLiteral = true → f.Holds v i) (f : Formula α) :
    f ∈ U → ∀ i, f.guaranteedBy (now i) (later i) = true → f.Holds v i := by
  induction f using Formula.of_operands with
  | step f ih =>
    intro hf
    cases hl : f.isLiteral with
    | true =>
      intro i hg
      rcases Formula.contains_of_guaranteedBy hl hg with ⟨id, rfl⟩ | hc
      · trivial
      · have hlabels := h.labels hU hstart i
        exact hliterals i f
          ((OrderedSet.contains_iff_mem hU.injOn hlabels.now_within hf).1 hc) hl
    | false =>
      -- The operands are true by induction; only the formula itself is left for later.
      have hexpands (i : Nat) (hg : f.guaranteedBy (now i) (later i) = true) :
          f.Expands (fun g => g.Holds v i)
            (fun g => g.guaranteedBy (now (i + 1)) (later (i + 1)) = true) :=
        (h.expands hU hstart hf hl hg).mono
          (fun g hg hguar => ih g hg (hU.operand_mem f hf g hg) i hguar) fun g _ hguar => hguar
      cases f with
      | tt | ff | prop | negProp => cases hl
      | next id g =>
        intro i hg
        have hop : g ∈ (Formula.next id g).operands := List.mem_singleton.2 rfl
        exact ih g hop (hU.operand_mem _ hf g hop) (i + 1)
          ((Formula.expands_next ..).1 (hexpands i hg))
      | binary id op l r =>
        intro i hg
        cases op with
        | conj => exact (Formula.expands_conj ..).1 (hexpands i hg)
        | disj => exact ((Formula.expands_disj ..).1 (hexpands i hg)).symm
        | strongUntil =>
          -- Fairness: an until is not put off forever.
          obtain ⟨d, hd⟩ := h.fulfilled hU hstart hfair hf hg
          have hop : r ∈ (Formula.binary id .strongUntil l r).operands :=
            List.mem_cons_of_mem _ (List.mem_singleton.2 rfl)
          have hr : r.Holds v (i + d) := ih r hop (hU.operand_mem _ hf r hop) (i + d) hd
          refine until_of_fulfilled (S := fun i => (Formula.binary id .strongUntil l r).guaranteedBy
            (now i) (later i) = true) (fun k hk => ?_) hr hg
          exact (Formula.expands_strongUntil ..).1 (hexpands k hk)
        | weakUntil =>
          -- The others may be put off, for they are greatest solutions of their expansions.
          refine WeakUntil.greatest (S := fun i => (Formula.binary id .weakUntil l r).guaranteedBy
            (now i) (later i) = true) (fun k _ hk => ?_) hg
          exact (Formula.expands_weakUntil ..).1 (hexpands k hk)
        | release =>
          refine Release.greatest (S := fun i => (Formula.binary id .release l r).guaranteedBy
            (now i) (later i) = true) (fun k _ hk => ?_) hg
          rcases (Formula.expands_release ..).1 (hexpands k hk) with ⟨hl', hr⟩ | ⟨hr, hnext⟩
          · exact ⟨hr, .inl hl'⟩
          · exact ⟨hr, .inr hnext⟩

end Soundness

/-! ## §2. A word guides a branch -/

/-- The formulas of the branch are true at a position, those it postponed at the
    next one. -/
structure Branch.Holds (v : Nat → α → Prop) (i : Nat) (b : Branch α) : Prop where
  todo : ∀ f ∈ b.todo, f.Holds v i
  now : ∀ f ∈ b.now, f.Holds v i
  later : ∀ f ∈ b.later, f.Holds v (i + 1)

/-- An until that was asked for from the start and that the position fulfils is
    fulfilled by the branch, or it is younger than all that was treated. -/
def Branch.Prompt (v : Nat → α → Prop) (i : Nat) (asked : FormulaSet α) (b : Branch α) : Prop :=
  ∀ id l r, .binary id .strongUntil l r ∈ asked → r.Holds v i →
    b.Promises r ∨ (.binary id .strongUntil l r ∈ b.todo ∧ ∀ g ∈ b.now, g.id < id)

section Guidance

variable {asked todo : FormulaSet α} {b b' : Branch α} {a : Alternative α}
  (hU : Formula.Family U)
include hU

/-- Formulas that are true at one position do not contradict each other. -/
theorem Formula.contradicts_eq_false {g : Formula α} (hf : f ∈ U) (hg : g ∈ U)
    (hfv : f.Holds v i) (hgv : g.Holds v i) : f.contradicts g = false := by
  -- a proposition and its negation do not hold together
  have hnegated {j p : Nat} {c : α} {g : Formula α} (hn : .negProp j p c ∈ U) (hg : g ∈ U)
      (hnv : (Formula.negProp j p c).Holds v i) (hgv : g.Holds v i) : (g.id == p) = false := by
    rw [beq_eq_false_iff_ne]
    intro hid
    have hp : Formula.prop p c ∈ U := hU.operand_mem _ hn _ (List.mem_singleton.2 rfl)
    rw [hU.injOn hg hp hid] at hgv
    exact hnv hgv
  cases f with
  | negProp j p c => exact hnegated hf hg hfv hgv
  | ff => exact False.elim hfv
  | tt | prop | next | binary =>
    cases g with
    | negProp j p c => exact hnegated hg hf hgv hfv
    | ff => exact False.elim hgv
    | tt | prop | next | binary => rfl

/-- An alternative that is true is open, and it fulfils an until that is true if
    the position does and the branch does not guarantee the until. -/
theorem Branch.Holds.exists_offer (hb : b.Holds v i) (hw : b.Within U) (hf : f ∈ U)
    (hfv : f.Holds v i) :
    ∃ a, b.Offers f a ∧ (∀ g ∈ a.now, g.Holds v i) ∧ (∀ g ∈ a.later, g.Holds v (i + 1))
      ∧ ∀ id l r, f = .binary id .strongUntil l r → f.guaranteedBy b.now b.later = false →
          r.Holds v i → r ∈ a.now := by
  cases hl : f.isLiteral with
  | true =>
    have hrefutes : b.refutes f = false := by
      have hnone : b.now.toList.any (·.contradicts f) = false := by
        rw [List.any_eq_false]
        intro g hg
        rw [Formula.contradicts_eq_false hU (hw.now g hg) hf (hb.now g hg) hfv]
        exact Bool.false_ne_true
      cases f with
      | ff => exact False.elim hfv
      | tt | prop | negProp | next | binary => exact hnone
    refine ⟨{}, .literal hl hrefutes, fun g hg => absurd hg List.not_mem_nil,
      fun g hg => absurd hg List.not_mem_nil, ?_⟩
    rintro id l r rfl
    cases hl
  | false =>
    cases hg : f.guaranteedBy b.now b.later with
    | true =>
      exact ⟨{}, .guaranteed hl hg, fun g hg => absurd hg List.not_mem_nil,
        fun g hg => absurd hg List.not_mem_nil, fun _ _ _ _ hg' => absurd hg' (by decide)⟩
    | false =>
      -- An until whose right side holds now is given the alternative that says so.
      by_cases huntil : ∃ id l r, f = .binary id .strongUntil l r ∧ r.Holds v i
      · obtain ⟨id, l, r, rfl, hr⟩ := huntil
        refine ⟨{ now := [r] }, .expanded hl hg List.mem_cons_self, fun g hg => ?_,
          fun g hg => absurd hg List.not_mem_nil, ?_⟩
        · rwa [List.mem_singleton.1 hg]
        · intro id' l' r' heq _ _
          cases heq
          exact List.mem_singleton.2 rfl
      · obtain ⟨a, ha, hnow, hlater⟩ := (Formula.holds_iff_expands v hl i).1 hfv
        exact ⟨a, .expanded hl hg ha, hnow, hlater,
          fun id l r heq _ hr => absurd ⟨id, l, r, heq, hr⟩ huntil⟩

/-- One formula is treated as the word tells. -/
theorem Branch.Holds.exists_treat (hproper : b.Proper U asked) (hb : b.Holds v i)
    (hprompt : b.Prompt v i asked) (hpop : b.todo.popLeast? = some (f, todo)) :
    ∃ b' ∈ ({ b with todo } : Branch α).treat f, b'.Proper U asked ∧ b'.Holds v i
      ∧ b'.Prompt v i asked ∧ b'.now = b.now.insert f := by
  obtain ⟨hf, hfresh, htodo⟩ := hproper.popped hpop
  obtain ⟨hmem, hlt⟩ := OrderedSet.popLeast?_eq_some hpop
  have hfv : f.Holds v i := hb.todo f ((hmem f).2 (.inl rfl))
  have hrest : ({ b with todo } : Branch α).Holds v i :=
    ⟨fun g hg => hb.todo g ((hmem g).2 (.inr hg)), hb.now, hb.later⟩
  -- what holds has an alternative that holds
  obtain ⟨a, ho, hnow, hlater, huntil⟩ := hrest.exists_offer hU
    ⟨fun g hg => (htodo g hg).1, hproper.within.now, hproper.within.later⟩ hf hfv
  have ht := hproper.treated hU hpop ho
  refine ⟨_, mem_treat.2 ⟨a, ho, rfl⟩, hproper.of_treated hU hpop ho ht, ⟨?_, ?_, ?_⟩, ?_, ht.now⟩
  · intro g hg
    rcases (ht.mem_todo g).1 hg with hg | ⟨hg, -⟩
    · exact hrest.todo g hg
    · exact hnow g hg
  · intro g hg
    rcases (ht.mem_now g).1 hg with rfl | hg
    · exact hfv
    · exact hb.now g hg
  · intro g hg
    rcases (ht.mem_later g).1 hg with hg | hg
    · exact hb.later g hg
    · exact hlater g hg
  · intro id l r hu hr
    rcases hprompt id l r hu hr with hp | ⟨hin, hless⟩
    · exact .inl (ht.promises hpop hp)
    rcases (hmem _).1 hin with heq | hin
    · -- the until itself is treated; nothing can have postponed it before
      refine .inl ?_
      have hlnot : .binary id .strongUntil l r ∉ b.later := by
        intro hlater
        obtain ⟨k, hk, hle⟩ := hproper.postponed _ hlater
        exact absurd (hless k hk) (Nat.not_lt.2 hle)
      cases hg : f.guaranteedBy b.now b.later with
      | true =>
        subst heq
        rcases (Formula.guaranteedBy_iff rfl).1 hg with hc | he
        · exact absurd ((OrderedSet.contains_iff_mem hU.injOn hproper.within.now hf).1 hc) hfresh
        · rcases (Formula.expands_strongUntil ..).1 he with hr | ⟨-, hc⟩
          · exact ht.promises hpop (.inr hr)
          · exact absurd ((OrderedSet.contains_iff_mem hU.injOn hproper.within.later hf).1 hc) hlnot
      | false => exact ht.promises_of_mem (huntil id l r heq.symm hg hr)
    · refine .inr ⟨(ht.mem_todo _).2 (.inl hin), fun g hg => ?_⟩
      rcases (ht.mem_now g).1 hg with rfl | hg
      · exact hlt _ hin
      · exact hless g hg

/-- A branch that is true comes to sets that are true. -/
theorem Branch.Holds.exists_completion (hproper : b.Proper U asked) (hb : b.Holds v i)
    (hprompt : b.Prompt v i asked) :
    ∃ now later, b.Completes now later ∧ (∀ f ∈ now, f.Holds v i)
      ∧ (∀ f ∈ later, f.Holds v (i + 1))
      ∧ ∀ id l r, .binary id .strongUntil l r ∈ asked → r.Holds v i →
          r.guaranteedBy now later = true := by
  -- every step counts one more formula of the family among those of now
  generalize hn : U.length - b.now.size = n
  induction n using Nat.strongRecOn generalizing b with
  | ind n ih =>
    cases hpop : b.todo.popLeast? with
    | none =>
      have hnone := OrderedSet.popLeast?_eq_none_iff.1 hpop
      refine ⟨b.now, b.later, .done hpop, hb.now, hb.later, fun id l r hu hr => ?_⟩
      rcases hprompt id l r hu hr with hp | ⟨hin, -⟩
      · exact hp.resolve_left (hnone r)
      · exact absurd hin (hnone _)
    | some entry =>
      obtain ⟨f, todo⟩ := entry
      obtain ⟨b', hb', hproper', hholds, hprompt', hnow⟩ := hb.exists_treat hU hproper hprompt hpop
      obtain ⟨hf, hfresh, -⟩ := hproper.popped hpop
      have hsize : b'.now.size = b.now.size + 1 := by
        rw [hnow]
        exact OrderedSet.size_insert hU.injOn hproper.within.now hf hfresh
      have hle : b'.now.size ≤ U.length := OrderedSet.size_le hproper'.within.now
      obtain ⟨now, later, hc, hresult⟩ :=
        ih (U.length - b'.now.size) (by omega) hproper' hholds hprompt' rfl
      exact ⟨now, later, .treat hpop hb' hc, hresult⟩

/-! ## §3. A word guides an unfolding -/

/-- Formulas that are true at a position have a label that is true, and that
    fulfils each until among them that the position fulfils. -/
theorem exists_prompt_completion (hasked : asked.Within U) (hv : ∀ f ∈ asked, f.Holds v i) :
    ∃ now later, Completion asked now later ∧ (∀ f ∈ now, f.Holds v i)
      ∧ (∀ f ∈ later, f.Holds v (i + 1))
      ∧ ∀ id l r, .binary id .strongUntil l r ∈ asked → r.Holds v i →
          r.guaranteedBy now later = true := by
  have hnone (f : Formula α) : f ∉ (OrderedSet.empty : FormulaSet α) := OrderedSet.not_mem_empty f
  refine Branch.Holds.exists_completion hU (Branch.Proper.start hasked 0)
    ⟨hv, fun f hf => absurd hf (hnone f), fun f hf => absurd hf (hnone f)⟩ ?_
  intro id l r hu _
  exact .inr ⟨hu, fun g hg => absurd hg (hnone g)⟩

/-- If every until is fulfilled as soon as it is asked for at a position that
    fulfils it, none is pending for ever. -/
theorem Unfolding.fair (h : Unfolding start now later) (hstart : start.Within U)
    (hv : ∀ i, ∀ f ∈ now i, f.Holds v i)
    (hprompt : ∀ i id l r, .binary id .strongUntil l r ∈ askedAt start later i → r.Holds v i →
      r.guaranteedBy (now i) (later i) = true) : Fair U now later := by
  intro u hu huntil n
  cases u with
  | tt | ff | prop | negProp | next => cases huntil
  | binary id op l r =>
    cases op with
    | conj | disj | release | weakUntil => cases huntil
    | strongUntil =>
      by_contra hpending
      push Not at hpending
      have hall (i : Nat) (hi : n ≤ i) : .binary id .strongUntil l r ∈ now i
          ∧ r.guaranteedBy (now i) (later i) = false := by
        have hp := hpending i hi
        rw [ne_eq, Bool.not_eq_false] at hp
        obtain ⟨hc, hr⟩ := Bool.and_eq_true_iff.1 hp
        have hlabels := h.labels hU hstart i
        exact ⟨(OrderedSet.contains_iff_mem hU.injOn hlabels.now_within hu).1 hc,
          by simpa using hr⟩
      have hlater (i : Nat) (hi : n ≤ i) : .binary id .strongUntil l r ∈ later i := by
        obtain ⟨hmem, hr⟩ := hall i hi
        have he := (h.labels hU hstart i).expanded _ hmem
        rcases (Formula.expands_strongUntil ..).1 he with hr' | ⟨-, hlater⟩
        · exact absurd (hr.symm.trans hr') Bool.false_ne_true
        · exact hlater
      -- the word fulfils it some time, and then it was asked for
      obtain ⟨j, hj, hr, -⟩ := hv (n + 1) _ (hall (n + 1) (Nat.le_succ n)).1
      obtain ⟨k, rfl⟩ : ∃ k, j = k + 1 := ⟨j - 1, by omega⟩
      have hg := hprompt (k + 1) id l r (hlater k (by omega)) hr
      exact absurd ((hall (k + 1) (by omega)).2.symm.trans hg) Bool.false_ne_true

/-- Formulas that are true at the start of a word have a fair unfolding that is
    true along the word. -/
theorem exists_fair_unfolding (hstart : start.Within U) (hv : ∀ f ∈ start, f.Holds v 0) :
    ∃ now later, Unfolding start now later ∧ Fair U now later ∧ ∀ i, ∀ f ∈ now i, f.Holds v i := by
  have hstep (i : Nat) (asked : FormulaSet α) : ∃ label : FormulaSet α × FormulaSet α,
      asked.Within U → (∀ f ∈ asked, f.Holds v i) →
        Completion asked label.1 label.2 ∧ (∀ f ∈ label.1, f.Holds v i)
          ∧ (∀ f ∈ label.2, f.Holds v (i + 1))
          ∧ ∀ id l r, .binary id .strongUntil l r ∈ asked → r.Holds v i →
              r.guaranteedBy label.1 label.2 = true := by
    by_cases h : asked.Within U ∧ ∀ f ∈ asked, f.Holds v i
    · obtain ⟨now, later, hlabel⟩ := exists_prompt_completion hU h.1 h.2
      exact ⟨(now, later), fun _ _ => hlabel⟩
    · exact ⟨(.empty, .empty), fun hw hv => absurd ⟨hw, hv⟩ h⟩
  -- The unfolding is chosen position by position, always a prompt completion.
  choose label hlabel using hstep
  let asked : Nat → FormulaSet α := fun i => Nat.rec start (fun i asked => (label i asked).2) i
  have hgood (i : Nat) : (asked i).Within U ∧ ∀ f ∈ asked i, f.Holds v i := by
    induction i with
    | zero => exact ⟨hstart, hv⟩
    | succ i ih =>
      obtain ⟨hc, -, hlater, -⟩ := hlabel i (asked i) ih.1 ih.2
      exact ⟨(hc.labels hU ih.1).later_within, hlater⟩
  have hall (i : Nat) := hlabel i (asked i) (hgood i).1 (hgood i).2
  have hasked (i : Nat) : askedAt start (fun i => (label i (asked i)).2) i = asked i := by
    cases i <;> rfl
  have hunfolding : Unfolding start (fun i => (label i (asked i)).1)
      (fun i => (label i (asked i)).2) := by
    intro i
    rw [hasked]
    exact (hall i).1
  refine ⟨_, _, hunfolding, hunfolding.fair hU hstart (fun i => (hall i).2.1) ?_,
    fun i => (hall i).2.1⟩
  intro i id l r hu hr
  rw [hasked] at hu
  exact (hall i).2.2.2 id l r hu hr

end Guidance
end LinearTime
