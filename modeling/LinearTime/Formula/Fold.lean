/-
  LinearTime.Formula.Fold — working through a formula from its operands upwards.

  Formulas of one session share their operands, so the tree of a formula may
  be far larger than the number of different formulas in it: with every level
  of nesting the negation of a weak until doubles.  A fold therefore notes the
  result for every creation number it meets, and looks it up where the number
  occurs again:

      value    the result by recursion over the tree, nothing noted
      run      the same, each creation number worked through once

  The two agree wherever equal numbers mean equal formulas (`run_eq_value`),
  which is what a session sees to.

  Core only.
-/

import LinearTime.Formula.Basic

namespace LinearTime

/-! ## §1. Noted results -/

/-- Results by creation number, the latest first. -/
abbrev Memo (β : Type) := List (Nat × β)

/-- The result noted under a number, or else the computed one, which is noted
    then. -/
def Memo.recall {m : Type → Type} [Monad m] {β : Type} (id : Nat)
    (compute : StateT (Memo β) m β) : StateT (Memo β) m β := do
  match (← get).lookup id with
  | some b => return b
  | none =>
    let b ← compute
    modify ((id, b) :: ·)
    return b

/-! ## §2. Folds -/

/-- What to make of a literal, and of an operator over the results for its
    operands. -/
structure Formula.Fold (m : Type → Type) (α β : Type) where
  literal : Formula α → m β
  next : β → m β
  binary : BinaryOp → β → β → m β

namespace Formula.Fold

variable {α β : Type}

/-- The result for a formula, by recursion over its tree. -/
def value (fold : Fold Id α β) : Formula α → β
  | .next _ f => fold.next (fold.value f)
  | .binary _ op l r => fold.binary op (fold.value l) (fold.value r)
  | f => fold.literal f

/-- The result for a formula, the left operand before the right one, and every
    creation number worked through once. -/
def visit {m : Type → Type} [Monad m] (fold : Fold m α β) :
    Formula α → StateT (Memo β) m β
  -- both operators note their result under their own number, literals likewise
  | .next id f => Memo.recall id do
    let b ← fold.visit f
    fold.next b
  | .binary id op l r => Memo.recall id do
    let b ← fold.visit l
    let c ← fold.visit r
    fold.binary op b c
  | f => Memo.recall f.id (fold.literal f)

/-- The result for a formula, with nothing noted before. -/
def run {m : Type → Type} [Monad m] (fold : Fold m α β) (f : Formula α) : m β :=
  (fold.visit f).run' []

end Formula.Fold

/-! ## §3. Sharing does not show -/

namespace Formula

variable {α β : Type}

/-- The formula itself and all that its tree is built of. -/
inductive Part : Formula α → Formula α → Prop
  | refl (f : Formula α) : Part f f
  | next {g f : Formula α} (id : Nat) : Part g f → Part g (.next id f)
  | left {g l : Formula α} (id : Nat) (op : BinaryOp) (r : Formula α) :
    Part g l → Part g (.binary id op l r)
  | right {g r : Formula α} (id : Nat) (op : BinaryOp) (l : Formula α) :
    Part g r → Part g (.binary id op l r)

/-- Parts with one creation number are one formula. -/
def Coherent (f : Formula α) : Prop :=
  ∀ g h : Formula α, Part g f → Part h f → g.id = h.id → g = h

namespace Fold

/-- All that is noted are values of parts of `f`. -/
def Sound (fold : Fold Id α β) (f : Formula α) (memo : Memo β) : Prop :=
  ∀ id b, memo.lookup id = some b → ∃ g, Part g f ∧ g.id = id ∧ fold.value g = b

theorem Sound.cons {fold : Fold Id α β} {f g : Formula α} {memo : Memo β}
    (h : fold.Sound f memo) (part : Part g f) :
    fold.Sound f ((g.id, fold.value g) :: memo) := by
  intro id b hb
  rw [List.lookup_cons] at hb
  split at hb
  next heq => exact ⟨g, part, (eq_of_beq heq).symm, Option.some.inj hb⟩
  next => exact h id b hb

theorem Sound.recall {fold : Fold Id α β} {f g : Formula α} {memo : Memo β}
    {compute : StateT (Memo β) Id β} (coherent : Coherent f) (part : Part g f)
    (sound : fold.Sound f memo)
    (computed : (compute memo).1 = fold.value g ∧ fold.Sound f (compute memo).2) :
    (Memo.recall g.id compute memo).1 = fold.value g
      ∧ fold.Sound f (Memo.recall g.id compute memo).2 := by
  cases hl : memo.lookup g.id with
  | some b =>
    have hr : Memo.recall g.id compute memo = (b, memo) := by
      show (match memo.lookup g.id with
        | some b => (pure b : StateT (Memo β) Id β)
        | none => _) memo = (b, memo)
      rw [hl]
      rfl
    -- Coherence: what is noted under the number of `g` was noted for `g` itself.
    obtain ⟨g', part', hid, hv⟩ := sound g.id b hl
    rw [hr, coherent g g' part part' hid.symm]
    exact ⟨hv.symm, sound⟩
  | none =>
    have hr : Memo.recall g.id compute memo
        = ((compute memo).1, (g.id, (compute memo).1) :: (compute memo).2) := by
      show (match memo.lookup g.id with
        | some b => (pure b : StateT (Memo β) Id β)
        | none => _) memo = _
      rw [hl]
      rfl
    rw [hr, computed.1]
    exact ⟨rfl, computed.2.cons part⟩

theorem visit_eq_value (fold : Fold Id α β) {f : Formula α} (coherent : Coherent f)
    (g : Formula α) (part : ∀ h, Part h g → Part h f) (memo : Memo β)
    (sound : fold.Sound f memo) :
    (fold.visit g memo).1 = fold.value g ∧ fold.Sound f (fold.visit g memo).2 := by
  induction g generalizing memo with
  | tt | ff | prop | negProp => exact sound.recall coherent (part _ (.refl _)) ⟨rfl, sound⟩
  | next id g ih =>
    have hg := ih (fun h p => part h (.next id p)) memo sound
    refine sound.recall coherent (part _ (.refl _)) ⟨?_, hg.2⟩
    show fold.next (fold.visit g memo).1 = fold.next (fold.value g)
    rw [hg.1]
  | binary id op l r ihl ihr =>
    have hl := ihl (fun h p => part h (.left id op r p)) memo sound
    have hr := ihr (fun h p => part h (.right id op l p)) (fold.visit l memo).2 hl.2
    refine sound.recall coherent (part _ (.refl _)) ⟨?_, hr.2⟩
    show fold.binary op (fold.visit l memo).1 (fold.visit r (fold.visit l memo).2).1
      = fold.binary op (fold.value l) (fold.value r)
    rw [hl.1, hr.1]

/-- Working through a shared formula once does not change the result. -/
theorem run_eq_value (fold : Fold Id α β) {f : Formula α} (coherent : Coherent f) :
    fold.run f = fold.value f :=
  (fold.visit_eq_value coherent f (fun _ p => p) [] (by intro id b h; cases h)).1

end Fold
end Formula
end LinearTime
