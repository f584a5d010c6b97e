/-
  LinearTime.Proofs.Sizes — what simplification does to sizes.

  A weak until `y W l` stands for the release `l V (y \/ l)`, which has `l` twice.
  Simplification works on the formula and on its negation, where there are no weak
  untils, and may come back with a release that is none:

      ( a W c ) /\ ( b W c )      ⟶      c V ( ( a \/ c ) /\ ( b \/ c ) )

  So the size may grow.  It does not grow if weak untils count as the releases that
  they stand for: this is a weight, negated propositions weighing twice as much as
  propositions, and no rule cares what they weigh.

  Main results:
    * `Formula.size_unfolded` — the size with weak untils written out is a weight.
    * `RuleTable.simplified_size_le` — simplification makes it not larger, and so no
      formula without weak untils.
    * `RuleTable.simplified_size_gt_weakUntils` — the formula above does get larger.
-/

import LinearTime.Proofs.Histories
import LinearTime.Proofs.Settling

namespace LinearTime

variable {α : Type}

/-! ## §1. Weak untils written out -/

namespace Formula

/-- The formula with every weak until written as the release that it stands for. -/
def unfolded : Formula α → Formula α
  | next i f => next i f.unfolded
  | binary i .weakUntil l r =>
    binary i .release r.unfolded (binary i .disj l.unfolded r.unfolded)
  | binary i op l r => binary i op l.unfolded r.unfolded
  | f => f

/-- Writing weak untils out does not change what a formula means. -/
theorem unfolded_holds (f : Formula α) (v : Nat → α → Prop) (i : Nat) :
    f.unfolded.Holds v i ↔ f.Holds v i := by
  induction f generalizing i with
  | tt | ff | prop | negProp => exact Iff.rfl
  | next j f ih => exact ih (i + 1)
  | binary j op l r ihl ihr =>
    cases op with
    | weakUntil =>
      have hdisj (k : Nat) : (binary j .disj l.unfolded r.unfolded).Holds v k
          ↔ l.Holds v k ∨ r.Holds v k := or_congr (ihl k) (ihr k)
      exact (BinaryOp.holds_congr .release ihr hdisj).trans weakUntil_iff_release.symm
    | conj | disj | strongUntil | release => exact BinaryOp.holds_congr _ ihl ihr

/-- The size with weak untils written out is a weight. -/
theorem size_unfolded (f : Formula α) :
    f.unfolded.size = f.signedWeight (fun _ => 1) (fun _ => 2) := by
  induction f with
  | tt | ff | prop | negProp => rfl
  | next i f ih => simp only [unfolded, size, signedWeight, ih]
  | binary i op l r ihl ihr =>
    cases op with
    | weakUntil =>
      simp only [unfolded, size, signedWeight, BinaryOp.weight, ihl, ihr]
      omega
    | conj | disj | strongUntil | release =>
      simp only [unfolded, size, signedWeight, BinaryOp.weight, ihl, ihr]

theorem size_le_size_unfolded (f : Formula α) : f.size ≤ f.unfolded.size := by
  induction f with
  | tt | ff | prop | negProp => exact le_refl _
  | next i f ih => exact Nat.succ_le_succ ih
  | binary i op l r ihl ihr => cases op <;> simp only [unfolded, size] <;> omega

/-- Without weak untils there is nothing to write out. -/
theorem unfolded_eq_self {f : Formula α}
    (h : ∀ i l r, ¬ Part (binary i .weakUntil l r) f) : f.unfolded = f := by
  induction f with
  | tt | ff | prop | negProp => rfl
  | next i f ih => rw [unfolded, ih fun j l r part => h j l r (.next i part)]
  | binary i op l r ihl ihr =>
    have hl := ihl fun j l' r' part => h j l' r' (.left i op r part)
    have hr := ihr fun j l' r' part => h j l' r' (.right i op l part)
    cases op with
    | weakUntil => exact absurd (.refl _) (h i l r)
    | conj | disj | strongUntil | release => simp only [unfolded, hl, hr]

end Formula

/-! ## §2. Passes -/

variable [BEq α] [EquivBEq α] {s : Session α} {f : Formula α}

/-- What the passes settle on weighs no more than the formula, or its negation if it
    stands for that, whatever propositions and negated propositions weigh. -/
theorem Rule.settle?_signedWeight_le {rules : List Rule}
    (hrules : ∀ rule ∈ rules, rule.LightensSigned) (passes : Nat) (negated : Bool)
    (hs : s.Canonical) (hf : f ∈ s.interned) :
    Build.Leads Session.Canonical (settle? rules passes negated f) s fun r t => ∀ g, r = some g →
      g ∈ t.interned ∧ ∀ x y : α → Nat, (∀ a, 0 < x a) → (∀ a, 0 < y a) →
        g.signedWeight x y
          ≤ if negated then f.signedWeight y x else f.signedWeight x y := by
  let W (x y : α → Nat) : Prop := (∀ a, 0 < x a) ∧ ∀ a, 0 < y a
  have kept : Rule.Kept (α := α) Session.Canonical rules (Formula.StaysOrDrops W) :=
    Rule.kept_drops fun rule hrule f g hfg x y hxy =>
      hfg.signedWeight_lt (hrules rule hrule) hxy.1 hxy.2
  have hle {f g : Formula α} (hfg : Formula.StaysOrDrops W f g) {x y : α → Nat} (hxy : W x y) :
      g.signedWeight x y ≤ f.signedWeight x y := by
    rcases hfg with rfl | hlt
    · exact le_refl _
    · exact (hlt x y hxy).le
  refine settle?_leads kept (N := fun negated f g => ∀ x y : α → Nat, (∀ a, 0 < x a) →
    (∀ a, 0 < y a) → g.signedWeight x y
      ≤ if negated then f.signedWeight y x else f.signedWeight x y) ?_ ?_ passes negated hs hf
  · intro f g h hfg hneg x y hx hy
    rw [hneg.signedWeight]
    exact hle hfg ⟨hy, hx⟩
  · intro b f g h k hfg hneg hk x y hx hy
    refine (hk x y hx hy).trans ?_
    -- the polarity of the formula is that of its negation the other way round
    cases b with
    | false =>
      simp only [Bool.not_false, if_true, hneg.signedWeight, Bool.false_eq_true, if_false]
      exact hle hfg ⟨hx, hy⟩
    | true =>
      simp only [Bool.not_true, if_true, hneg.signedWeight, Bool.false_eq_true, if_false]
      exact hle hfg ⟨hy, hx⟩

namespace RuleTable

/-- Simplification with the built-in rules never makes a formula larger, if weak untils
    are counted as the releases that they stand for; and so it makes no formula larger in
    which there are none. -/
theorem simplified_size_le (stamp : Nat) (hs : s.Reached) (hf : f ∈ s.interned) :
    ((standard stamp).1.simplify f s).1.unfolded.size ≤ f.unfolded.size
      ∧ ((standard stamp).1.simplify f s).1.size ≤ f.unfolded.size
      ∧ ((∀ i l r, ¬ Formula.Part (.binary i .weakUntil l r) f) →
          ((standard stamp).1.simplify f s).1.size ≤ f.size) := by
  have hsettled := Rule.settle?_signedWeight_le (standard_lightensSigned stamp)
    (Rule.passLimit f) false hs.canonical hf
  -- The weights are those of the unfolded tree if atoms weigh one and negated ones two.
  have hunfolded : ((standard stamp).1.simplify f s).1.unfolded.size ≤ f.unfolded.size := by
    refine (simplify_leads (P := fun g => g.unfolded.size ≤ f.unfolded.size) _ hs.canonical hf
      (le_refl _) (hsettled.mono ?_)).result.2
    intro r t _ hr g hg
    obtain ⟨hmem, hle⟩ := hr g hg
    refine ⟨hmem, ?_⟩
    rw [Formula.size_unfolded, Formula.size_unfolded]
    exact hle _ _ (fun _ => Nat.one_pos) fun _ => Nat.two_pos
  have hsize := (Formula.size_le_size_unfolded _).trans hunfolded
  refine ⟨hunfolded, hsize, fun hweak => ?_⟩
  rwa [Formula.unfolded_eq_self hweak] at hsize

/-- `( a W c ) \/ ( b U c )`, in which there is a weak until, and `X ( a U a )`, in which
    there is none. -/
theorem simplified_size_le_weakUntil :
    let e : Expression String := .binary .disj (.binary .weakUntil (.prop "a") (.prop "c"))
      (.binary .strongUntil (.prop "b") (.prop "c"))
    let e' : Expression String := .next (.binary .strongUntil (.prop "a") (.prop "a"))
    let g := ((standard 0).1.simplify (e.build {}).1 (e.build {}).2).1
    let g' := ((standard 0).1.simplify (e'.build {}).1 (e'.build {}).2).1
    g.unfolded.size ≤ (e.build {}).1.unfolded.size ∧ g.size ≤ (e.build {}).1.unfolded.size
      ∧ (∀ i l r, ¬ Formula.Part (.binary i .weakUntil l r) (e'.build {}).1)
      ∧ g'.size ≤ (e'.build {}).1.size := by
  intro e e' g g'
  have hs (e : Expression String) : (e.build {}).2.Reached := Session.Reached.start.build e
  have hf (e : Expression String) : (e.build {}).1 ∈ (e.build {}).2.interned :=
    Session.Reached.start.built_mem e
  -- there is no weak until below a next over an until
  have hnone : ∀ i l r, ¬ Formula.Part (.binary i .weakUntil l r) (e'.build {}).1 := by
    intro i l r hpart
    cases hpart with
    | next _ hpart =>
      cases hpart with
      | left _ _ _ hpart => cases hpart
      | right _ _ _ hpart => cases hpart
  obtain ⟨hunfolded, hsize, -⟩ := simplified_size_le 0 (hs e) (hf e)
  exact ⟨hunfolded, hsize, hnone, (simplified_size_le 0 (hs e') (hf e')).2.2 hnone⟩

/-- The two weak untils of `( a W c ) /\ ( b W c )` become one release, which is no weak
    until: a formula of size 7 is simplified to one of size 9. -/
theorem simplified_size_gt_weakUntils :
    let e : Expression String := .binary .conj (.binary .weakUntil (.prop "a") (.prop "c"))
      (.binary .weakUntil (.prop "b") (.prop "c"))
    (e.build {}).2.Reached ∧ (e.build {}).1 ∈ (e.build {}).2.interned
      ∧ (e.build {}).1.size = 7
      ∧ ((standard 0).1.simplify (e.build {}).1 (e.build {}).2).1.size = 9 := by
  intro e
  refine ⟨Session.Reached.start.build e, Session.Reached.start.built_mem e, ?_, ?_⟩
  · decide
  · decide +kernel

end RuleTable
end LinearTime
