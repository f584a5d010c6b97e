/-
  LinearTime.Proofs.DoubleNegation — negating twice gives the formula back.

  Negation is pushed inwards, and its laws do not undo each other on the surface:
  an until becomes a release, which may be represented as a weak until, while a
  weak until becomes an until over a conjunction.  What closes the round trip is
  one law for all operators:

      made of `op.dual` over `l'` and `r'`, then negated
        =  made of `op` over the negations of `l'` and `r'`

  whichever representation was chosen on the way (`Negates.of_made`).  So the
  operands come back alike by induction, and the operator comes back with them,
  since a release that is a weak until would have been represented as one.

  Main results:
    * `Negates.alike` — on trees, up to likeness.
    * `Session.Canonical.eq_of_negates` — within a session, identically.
    * `negation_involutive` — for the constructor, whatever is built between the
      two negations.
-/

import LinearTime.Proofs.Histories
import LinearTime.Proofs.Likeness

namespace LinearTime

variable {α : Type}

/-! ## §1. What is made of an operator -/

theorem BinaryOp.dual_dual {op : BinaryOp} (hop : op ≠ .weakUntil) : op.dual.dual = op := by
  cases op with
  | conj | disj | strongUntil | release => rfl
  | weakUntil => exact absurd rfl hop

theorem BinaryOp.dual_ne_weakUntil (op : BinaryOp) : op.dual ≠ .weakUntil := by
  cases op <;> decide

namespace Formula

/-- Operands that may be exchanged may be given in either order. -/
theorem Made.comm {op : BinaryOp} (hop : op.isCommutative = true) {l r g : Formula α}
    (h : Made op l r g) : Made op r l g := by
  cases h with
  | plain id => exact .swapped id r l hop
  | swapped id => exact .plain id op r l
  | weak | weakSwapped => cases hop

/-- What is made of operands is resolved only if they are. -/
theorem Made.resolved [BEq α] {op : BinaryOp} {l r g : Formula α} (h : Made op l r g)
    (hg : g.Resolved) : l.Resolved ∧ r.Resolved := by
  cases h with
  | plain => exact ⟨hg.1, hg.2.1⟩
  | swapped => exact ⟨hg.2.1, hg.1⟩
  -- here `r` is a disjunction that the weak until only stands for
  | weak => exact ⟨hg.2.1, hg.1, hg.2.1, nofun⟩
  | weakSwapped => exact ⟨hg.2.1, hg.2.1, hg.1, nofun⟩

/-- A resolved formula is alike whatever is made of its operator over operands
    that are alike its own. -/
theorem Made.alike [BEq α] [EquivBEq α] {i : Nat} {op : BinaryOp} {l r l' r' g : Formula α}
    (h : Made op l' r' g) (hf : (binary i op l r).Resolved) (hl : l.Alike l')
    (hr : r.Alike r') : (binary i op l r).Alike g := by
  cases h with
  | plain id => exact .straight i id op hl hr
  | swapped id _ _ hop => exact .crossed i id hop hl hr
  -- a weak until would have to be one on this side, too
  | weak id k y =>
    have hweak : Weakens l' (binary k .disj y l') := .inr (.refl l')
    exact absurd (hweak.congr hl.symm hr.symm) (hf.2.2 rfl)
  | weakSwapped id k y =>
    have hweak : Weakens l' (binary k .disj l' y) := .inl (.refl l')
    exact absurd (hweak.congr hl.symm hr.symm) (hf.2.2 rfl)

/-! ## §2. Negating what was made -/

/-- What is made of the dual operator is negated operand by operand, into what
    is made of the operator. -/
theorem Negates.of_made {op : BinaryOp} (hop : op ≠ .weakUntil) {l r g f : Formula α}
    (made : Made op.dual l r g) (h : Negates g f) :
    ∃ l' r', Negates l l' ∧ Negates r r' ∧ Made op l' r' f := by
  obtain ⟨d, hd⟩ : ∃ d, d = op.dual := ⟨_, rfl⟩
  rw [← hd] at made
  have hback : d.dual = op := by
    rw [hd, BinaryOp.dual_dual hop]
  cases made with
  | plain id =>
    cases h with
    | dual _ _ hl hr made =>
      rw [hback] at made
      exact ⟨_, _, hl, hr, made⟩
    | weak => exact absurd hd.symm op.dual_ne_weakUntil
  | swapped id _ _ hcomm =>
    cases h with
    | dual _ _ hr hl made =>
      rw [hback] at made
      have hop : op.isCommutative = true := by
        cases d <;> cases hcomm <;> rw [← hback] <;> rfl
      exact ⟨_, _, hl, hr, made.comm hop⟩
    | weak => cases hcomm
  | weak id k y =>
    -- the release is a weak until, whose negation rebuilds that of the disjunction
    cases h with
    | dual _ hne => exact absurd rfl hne
    | weak _ hy hl both made =>
      rw [← hback]
      exact ⟨_, _, hl, .dual k (by decide) hy hl both, made⟩
  | weakSwapped id k y =>
    cases h with
    | dual _ hne => exact absurd rfl hne
    | weak _ hy hl both made =>
      rw [← hback]
      exact ⟨_, _, hl, .dual k (by decide) hl hy (both.comm rfl), made⟩

variable [BEq α] [EquivBEq α]

/-- A weak until over operands that are alike those of a disjunction is alike
    what is made of the release of the disjunction by the right one. -/
theorem Made.alike_weakUntil {i : Nat} {l r l' r' q c g : Formula α}
    (both : Made .disj l' r' c) (made : Made .release q c g) (hg : g.Resolved)
    (hl : l.Alike l') (hr : r.Alike r') (hq : r.Alike q) :
    (binary i .weakUntil l r).Alike g := by
  have hrq : r'.Alike q := hr.symm.trans hq
  cases made with
  | plain id =>
    -- this release is a weak until, and was not represented as one
    refine absurd ?_ (hg.2.2 rfl)
    cases both with
    | plain => exact .inr hrq
    | swapped => exact .inl hrq
  | swapped _ _ _ hop => cases hop
  | weak id k y =>
    cases both with
    | plain => exact .straight i id _ hl hq
    -- the right operand is found on the left: then all operands are alike
    | swapped => exact .straight i id _ ((hl.trans hq.symm).trans hr) hq
  | weakSwapped id k y =>
    cases both with
    | plain => exact .straight i id _ ((hl.trans hq.symm).trans hr) hq
    | swapped => exact .straight i id _ hl hq

/-- Negating twice gives what is alike, if neither formula has a release that is
    a weak until. -/
theorem Negates.alike {f g f' : Formula α} (h : Negates f g) (h' : Negates g f')
    (hf : f.Resolved) (hf' : f'.Resolved) : f.Alike f' := by
  induction h generalizing f' with
  | tt i =>
    cases h'
    exact .tt i _
  | ff i =>
    cases h'
    exact .ff i _
  | prop i j a =>
    cases h'
    exact .refl _
  | negProp i j a =>
    cases h' with
    | prop _ k => exact .negProp j k i i (BEq.refl a)
  | next i j _ ih =>
    cases h' with
    | next _ k h' => exact .next i k (ih h' hf hf')
  | dual i hop _ _ made ihl ihr =>
    obtain ⟨l', r', hl, hr, made'⟩ := Negates.of_made hop made h'
    obtain ⟨hl', hr'⟩ := made'.resolved hf'
    exact made'.alike hf (ihl hl hf.1 hl') (ihr hr hf.2.1 hr')
  | weak i _ _ both made ihl ihr =>
    have hrelease : BinaryOp.release ≠ .weakUntil := by decide
    have hdisj : BinaryOp.disj ≠ .weakUntil := by decide
    -- `! (! r U (! l /\ ! r))` is `r V (l \/ r)`, with `r` coming back twice
    obtain ⟨q, c, hq, hc, made'⟩ := Negates.of_made hrelease made h'
    obtain ⟨l', r', hl, hr, both'⟩ := Negates.of_made hdisj both hc
    obtain ⟨hq', hc'⟩ := made'.resolved hf'
    obtain ⟨hl', hr'⟩ := both'.resolved hc'
    exact both'.alike_weakUntil made' hf' (ihl hl hf.1 hl') (ihr hr hf.2.1 hr')
      (ihr hq hf.2.1 hq')

end Formula

/-! ## §3. Negation in a session -/

variable [BEq α] [EquivBEq α] {s : Session α}

/-- Within a session, what the negation of a formula negates to is the formula. -/
theorem Session.Canonical.eq_of_negates (h : s.Canonical) {f g f' : Formula α}
    (hf : f ∈ s.interned) (hf' : f' ∈ s.interned) (hfg : Formula.Negates f g)
    (hgf : Formula.Negates g f') : f' = f :=
  h.eq_of_alike hf' hf (hfg.alike hgf (h.resolved hf) (h.resolved hf')).symm

/-- The negation of a negation, in any session that shares both. -/
theorem Build.not_back_leads (h : s.Canonical) {f g : Formula α} (hf : f ∈ s.interned)
    (hg : g ∈ s.interned) (hfg : Formula.Negates f g) :
    Leads Session.Canonical (not g) s fun k _ => k = f := by
  refine (not_leads h hg).keeping ?_
  intro k t ht hkeep hk
  exact ht.eq_of_negates (hkeep f hf) hk.1 hfg hk.2

/-- Negation is an involution, on identity: in every session that comes about,
    negating a shared formula and then its negation gives that very formula,
    at once or after anything else that leaves it shared. -/
theorem negation_involutive (h : s.Reached) {f : Formula α} (hf : f ∈ s.interned) :
    ((do Build.not (← Build.not f)) s).1 = f
      ∧ ∀ u : Session α, u.Reached → (∀ k ∈ (Build.not f s).2.interned, k ∈ u.interned) →
          (Build.not (Build.not f s).1 u).1 = f := by
  have hnot := Build.not_leads h.canonical hf
  have hback (u : Session α) (hu : u.Canonical)
      (hkeep : ∀ k ∈ (Build.not f s).2.interned, k ∈ u.interned) :
      (Build.not (Build.not f s).1 u).1 = f :=
    (Build.not_back_leads hu (hkeep f (hnot.keeps f hf)) (hkeep _ hnot.result.1)
      hnot.result.2).result
  constructor
  · exact hback (Build.not f s).2 hnot.sound fun _ hk => hk
  · intro u hu hkeep
    exact hback u hu.canonical hkeep

/-- The weak until comes back from an until over a conjunction, by way of the
    release `b V (a \/ b)`. -/
theorem negation_involutive_weakUntil :
    let e : Expression String := .binary .weakUntil (.prop "a") (.prop "b")
    ((do Build.not (← Build.not (e.build {}).1)) (e.build {}).2).1 = (e.build {}).1 := by
  intro e
  exact (negation_involutive (Session.Reached.start.build e)
    (Session.Reached.start.built_mem e)).1

end LinearTime
