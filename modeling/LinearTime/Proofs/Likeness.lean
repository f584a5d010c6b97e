/-
  LinearTime.Proofs.Likeness — formulas that differ in their numbers only.

  Two formulas are *alike* if they have the same tree once numbers are forgotten
  and the operands of conjunctions and disjunctions may be exchanged.  Likeness
  looks at trees alone, so it compares what different calls built, at different
  times.  What a canonical session shares is identical as soon as it is alike:

      alike in one session   ⟹   operands identical, by induction
                             ⟹   same shape, hence shared

  Main results:
    * `Alike.refl`, `Alike.symm`, `Alike.trans` — likeness is an equivalence.
    * `isAlike_iff` — it can be decided.
    * `Session.Canonical.eq_of_alike` — within a session likeness is identity.
    * `Session.Canonical.resolved` — no release of a session is a weak until,
      also not up to likeness.
-/

import LinearTime.Proofs.Sharing

namespace LinearTime

variable {α : Type}

/-! ## §1. Likeness -/

/-- The same tree, whatever the numbers are and in whatever order the operands
    of conjunctions and disjunctions stand. -/
inductive Formula.Alike [BEq α] : Formula α → Formula α → Prop
  | tt (i j : Nat) : Alike (.tt i) (.tt j)
  | ff (i j : Nat) : Alike (.ff i) (.ff j)
  | prop (i j : Nat) {a b : α} (h : (a == b) = true) : Alike (.prop i a) (.prop j b)
  | negProp (i j k m : Nat) {a b : α} (h : (a == b) = true) :
    Alike (.negProp i k a) (.negProp j m b)
  | next (i j : Nat) {f g : Formula α} (h : Alike f g) : Alike (.next i f) (.next j g)
  | straight (i j : Nat) (op : BinaryOp) {l r l' r' : Formula α} (hl : Alike l l')
    (hr : Alike r r') : Alike (.binary i op l r) (.binary j op l' r')
  | crossed (i j : Nat) {op : BinaryOp} (hop : op.isCommutative = true)
    {l r l' r' : Formula α} (hl : Alike l r') (hr : Alike r l') :
    Alike (.binary i op l r) (.binary j op l' r')

namespace Formula

variable [BEq α] [EquivBEq α]

theorem Alike.refl (f : Formula α) : f.Alike f := by
  induction f with
  | tt i => exact .tt i i
  | ff i => exact .ff i i
  | prop i a => exact .prop i i (BEq.refl a)
  | negProp i k a => exact .negProp i i k k (BEq.refl a)
  | next i f ih => exact .next i i ih
  | binary i op l r ihl ihr => exact .straight i i op ihl ihr

theorem Alike.symm {f g : Formula α} (h : f.Alike g) : g.Alike f := by
  induction h with
  | tt i j => exact .tt j i
  | ff i j => exact .ff j i
  | prop i j h => exact .prop j i (BEq.symm h)
  | negProp i j k m h => exact .negProp j i m k (BEq.symm h)
  | next i j _ ih => exact .next j i ih
  | straight i j op _ _ ihl ihr => exact .straight j i op ihl ihr
  | crossed i j hop _ _ ihl ihr => exact .crossed j i hop ihr ihl

theorem Alike.trans {f g h : Formula α} (hfg : f.Alike g) (hgh : g.Alike h) : f.Alike h := by
  induction hfg generalizing h with
  | tt i j =>
    cases hgh
    exact .tt i _
  | ff i j =>
    cases hgh
    exact .ff i _
  | prop i j hab =>
    cases hgh with
    | prop _ k hbc => exact .prop i k (BEq.trans hab hbc)
  | negProp i j k m hab =>
    cases hgh with
    | negProp _ j' _ m' hbc => exact .negProp i j' k m' (BEq.trans hab hbc)
  | next i j _ ih =>
    cases hgh with
    | next _ k h => exact .next i k (ih h)
  -- operands are exchanged if exactly one of the two steps exchanges them
  | straight i j op _ _ ihl ihr =>
    cases hgh with
    | straight _ k _ hl hr => exact .straight i k op (ihl hl) (ihr hr)
    | crossed _ k hop hl hr => exact .crossed i k hop (ihl hl) (ihr hr)
  | crossed i j hop _ _ ihl ihr =>
    cases hgh with
    | straight _ k _ hl hr => exact .crossed i k hop (ihl hr) (ihr hl)
    | crossed _ k _ hl hr => exact .straight i k _ (ihl hr) (ihr hl)

omit [EquivBEq α] in
/-- Alike formulas have as many nodes. -/
theorem Alike.size_eq {f g : Formula α} (h : f.Alike g) : f.size = g.size := by
  induction h with
  | tt | ff | prop | negProp => rfl
  | next i j _ ih => exact congrArg (· + 1) ih
  | straight i j op _ _ ihl ihr => simp only [size, ihl, ihr]
  | crossed i j hop _ _ ihl ihr =>
    simp only [size, ihl, ihr]
    omega

omit [EquivBEq α] in
/-- Likeness as a test. -/
def isAlike : Formula α → Formula α → Bool
  | tt _, tt _ | ff _, ff _ => true
  | prop _ a, prop _ b | negProp _ _ a, negProp _ _ b => a == b
  | next _ f, next _ g => f.isAlike g
  | binary _ op l r, binary _ op' l' r' =>
    op == op' && (l.isAlike l' && r.isAlike r'
      || op.isCommutative && l.isAlike r' && r.isAlike l')
  | _, _ => false

omit [EquivBEq α] in
theorem isAlike_iff {f g : Formula α} : f.isAlike g = true ↔ f.Alike g := by
  constructor
  · intro h
    fun_induction isAlike f g with
    | case1 i j => exact .tt i j
    | case2 i j => exact .ff i j
    | case3 i a j b => exact .prop i j h
    | case4 i k a j m b => exact .negProp i j k m h
    | case5 i f j g ih => exact .next i j (ih h)
    | case6 i op l r j op' l' r' ihl ihr ihl' ihr' =>
      simp only [Bool.and_eq_true, Bool.or_eq_true, beq_iff_eq] at h
      obtain ⟨rfl, ⟨hl, hr⟩ | ⟨⟨hop, hl⟩, hr⟩⟩ := h
      · exact .straight i j op (ihl hl) (ihr hr)
      · exact .crossed i j hop (ihl' hl) (ihr' hr)
    | case7 => cases h
  · intro h
    induction h with
    | tt | ff => rfl
    | prop i j h => exact h
    | negProp i j k m h => exact h
    | next i j _ ih => exact ih
    | straight i j op _ _ ihl ihr =>
      simp only [isAlike, ihl, ihr, beq_self_eq_true, Bool.and_true, Bool.true_or]
    | crossed i j hop _ _ ihl ihr =>
      simp only [isAlike, ihl, ihr, hop, beq_self_eq_true, Bool.and_true, Bool.or_true]

omit [EquivBEq α] in
instance (f g : Formula α) : Decidable (f.Alike g) := decidable_of_iff _ isAlike_iff

end Formula

/-! ## §2. Likeness within a session -/

/-- What is alike in one session is identical. -/
theorem Session.Canonical.eq_of_alike [BEq α] {s : Session α} (h : s.Canonical)
    {f g : Formula α} (hf : f ∈ s.interned) (hg : g ∈ s.interned) (hfg : f.Alike g) :
    f = g := by
  induction hfg with
  | tt i j => exact h.shared _ hf _ hg rfl
  | ff i j => exact h.shared _ hf _ hg rfl
  | prop i j hab => exact h.shared _ hf _ hg hab
  | negProp i j k m hab =>
    -- the propositions below are shared as well, so they are one
    have hk := h.prop_mem hf
    have hm := h.prop_mem hg
    have hkm := h.shared _ hk _ hm hab
    injection hkm with hkm _
    subst hkm
    exact h.shared _ hf _ hg (beq_self_eq_true k)
  | @next i j f g _ ih =>
    have heq := ih (h.next_mem hf) (h.next_mem hg)
    subst heq
    exact h.shared _ hf _ hg (beq_self_eq_true f.id)
  | @straight i j op l r l' r' _ _ ihl ihr =>
    have hl := ihl (h.left_mem hf) (h.left_mem hg)
    have hr := ihr (h.right_mem hf) (h.right_mem hg)
    subst hl hr
    exact h.binary_eq hf hg
  | @crossed i j op hop l r l' r' _ _ ihl ihr =>
    have hl := ihl (h.left_mem hf) (h.right_mem hg)
    have hr := ihr (h.right_mem hf) (h.left_mem hg)
    subst hl hr
    exact h.binary_eq_crossed hop hf hg

/-! ## §3. Releases that are weak untils -/

namespace Formula

variable [BEq α]

/-- The formula is a disjunction with something alike `l`, so that `l` released
    by it, were it not represented as one, would be a weak until. -/
def Weakens (l : Formula α) : Formula α → Prop
  | binary _ .disj a b => a.Alike l ∨ b.Alike l
  | _ => False

/-- No release in the formula is a weak until. -/
def Resolved : Formula α → Prop
  | next _ f => f.Resolved
  | binary _ op l r => l.Resolved ∧ r.Resolved ∧ (op = .release → ¬ Weakens l r)
  | tt _ | ff _ | prop _ _ | negProp _ _ _ => True

/-- Being a weak until is a matter of likeness. -/
theorem Weakens.congr [EquivBEq α] {l l' r r' : Formula α} (h : Weakens l r) (hl : l.Alike l')
    (hr : r.Alike r') : Weakens l' r' := by
  cases hr with
  | tt | ff | prop | negProp | next => exact h.elim
  | straight i j op ha hb =>
    cases op with
    | disj =>
      rcases h with h | h
      · exact .inl ((ha.symm.trans h).trans hl)
      · exact .inr ((hb.symm.trans h).trans hl)
    | conj | strongUntil | release | weakUntil => exact h.elim
  | @crossed i j op hop a b a' b' ha hb =>
    cases op with
    | disj =>
      rcases h with h | h
      · exact .inr ((ha.symm.trans h).trans hl)
      · exact .inl ((hb.symm.trans h).trans hl)
    | conj | strongUntil | release | weakUntil => exact h.elim

end Formula

/-- A session shares no release that is a weak until. -/
theorem Session.Canonical.resolved [BEq α] {s : Session α} (h : s.Canonical) {f : Formula α}
    (hf : f ∈ s.interned) : f.Resolved := by
  induction f with
  | tt | ff | prop | negProp => trivial
  | next i f ih => exact ih (h.next_mem hf)
  | binary i op l r ihl ihr =>
    have hl := h.left_mem hf
    have hr := h.right_mem hf
    refine ⟨ihl hl, ihr hr, ?_⟩
    intro hop hweak
    -- a release is shaped so that it is no weak until; within a session likeness is equality
    have hnone := (h.shaped _ hf).2 hop
    cases r with
    | binary j op' a b =>
      cases op' with
      | disj =>
        have ha := h.left_mem hr
        have hb := h.right_mem hr
        simp only [Build.alternativeTo?, Formula.same_iff] at hnone
        rcases hweak with hal | hbl
        · rw [h.eq_of_alike ha hl hal] at hnone
          simp at hnone
        · rw [h.eq_of_alike hb hl hbl] at hnone
          split at hnone <;> simp at hnone
      | conj | strongUntil | release | weakUntil => exact hweak
    | tt | ff | prop | negProp | next => exact hweak

end LinearTime
