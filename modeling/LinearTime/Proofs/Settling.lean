/-
  LinearTime.Proofs.Settling — simplification with the built-in rules settles.

  Every formula has a weight.  All binary operators cost their operands and one
  more, but a weak until costs what the release costs that it abbreviates:

      weight (l V (y \/ l))  =  weight (y W l)

  Constructors then keep weights, whichever of the two forms they choose, and so
  do negations, but for exchanging what propositions and negated ones weigh.
  Every built-in rule lightens what it is applied to, whatever both weigh.  A
  pass leaves a formula as it is or lightens it, so not more than twice as many
  passes as the formula weighs change anything.

  Main results:
    * `Rule.kept_drops` — a pass with rules that lighten leaves a formula as it
      is or lightens it.
    * `standard_lightensSigned` — the built-in rules lighten.
    * `RuleTable.settles` — passes with the built-in rules settle before their
      limit is reached.
-/

import LinearTime.Proofs.SimplifiedMeaning

namespace LinearTime

variable {α : Type}

/-! ## §1. Weights -/

/-- The weight of an operator over operands of these weights. -/
def BinaryOp.weight : BinaryOp → Nat → Nat → Nat
  | .conj, l, r | .disj, l, r | .strongUntil, l, r | .release, l, r => l + r + 1
  | .weakUntil, l, r => l + 2 * r + 2

/-- The weight of a formula over atoms of these weights. -/
def Formula.weight (x : α → Nat) : Formula α → Nat
  | .tt _ | .ff _ => 1
  | .prop _ a | .negProp _ _ a => x a
  | .next _ f => f.weight x + 1
  | .binary _ op l r => op.weight (l.weight x) (r.weight x)

/-- The weight of a formula over propositions that weigh `x` and negated ones that
    weigh `y`. -/
def Formula.signedWeight (x y : α → Nat) : Formula α → Nat
  | .tt _ | .ff _ => 1
  | .prop _ a => x a
  | .negProp _ _ a => y a
  | .next _ f => f.signedWeight x y + 1
  | .binary _ op l r => op.weight (l.signedWeight x y) (r.signedWeight x y)

/-- The weight of a written formula: that of what is built from it. -/
def Expression.signedWeight (x y : α → Nat) : Expression α → Nat
  | .tt | .ff => 1
  | .prop a => x a
  | .not e => e.signedWeight y x
  | .next e => e.signedWeight x y + 1
  | .always e | .eventually e => e.signedWeight x y + 2
  | .binary op l r => op.weight (l.signedWeight x y) (r.signedWeight x y)
  | .implies l r => l.signedWeight y x + r.signedWeight x y + 1

/-- The weight of a formula whose atoms all weigh `1`. -/
def Formula.mass (f : Formula α) : Nat := f.weight fun _ => 1

/-- Negated propositions may weigh what propositions weigh. -/
theorem Formula.signedWeight_self (x : α → Nat) (f : Formula α) :
    f.signedWeight x x = f.weight x := by
  induction f with
  | tt | ff | prop | negProp => rfl
  | next i f ih => simp only [signedWeight, weight, ih]
  | binary i op l r ihl ihr => simp only [signedWeight, weight, ihl, ihr]

/-- Every formula weighs something, if all atoms do. -/
theorem Formula.signedWeight_pos {x y : α → Nat} (hx : ∀ a, 0 < x a) (hy : ∀ a, 0 < y a)
    (f : Formula α) : 0 < f.signedWeight x y := by
  induction f with
  | tt | ff => exact Nat.one_pos
  | prop i a => exact hx a
  | negProp i k a => exact hy a
  | next i f ih => exact Nat.succ_pos _
  | binary i op l r => cases op <;> simp [signedWeight, BinaryOp.weight]

/-- Every formula weighs something. -/
theorem Formula.mass_pos (f : Formula α) : 0 < f.mass := by
  unfold mass
  rw [← signedWeight_self]
  exact signedWeight_pos (fun _ => Nat.one_pos) (fun _ => Nat.one_pos) f

/-- Operators weigh at least as much over heavier operands. -/
theorem BinaryOp.weight_lt (op : BinaryOp) {l l' r r' : Nat} (hl : l' ≤ l) (hr : r' ≤ r)
    (h : l' < l ∨ r' < r) : op.weight l' r' < op.weight l r := by
  cases op <;> simp only [weight] <;> omega

/-- The constructors give a formula of the weight that is asked for. -/
theorem Formula.Made.signedWeight {op : BinaryOp} {l r g : Formula α} (h : Made op l r g)
    (x y : α → Nat) :
    g.signedWeight x y = op.weight (l.signedWeight x y) (r.signedWeight x y) := by
  cases h with
  | plain => rfl
  | swapped id _ _ hop =>
    -- only operators that weigh both operands alike swap them
    cases op with
    | conj | disj => simp only [Formula.signedWeight, BinaryOp.weight]; omega
    | strongUntil | release | weakUntil => cases hop
  | weak | weakSwapped => simp only [Formula.signedWeight, BinaryOp.weight]; omega

/-- Negation exchanges the weights of propositions and negated propositions, and keeps
    the weight otherwise. -/
theorem Formula.Negates.signedWeight {f g : Formula α} (h : Negates f g) (x y : α → Nat) :
    g.signedWeight x y = f.signedWeight y x := by
  induction h with
  | tt | ff | prop | negProp => rfl
  | next _ _ _ ih =>
    simp only [Formula.signedWeight]
    omega
  -- the dual operator has the same weight, with the signs exchanged
  | @dual _ op l r l' r' g hop _ _ made ihl ihr =>
    rw [made.signedWeight, ihl, ihr]
    cases op with
    | conj | disj | strongUntil | release => rfl
    | weakUntil => exact absurd rfl hop
  | weak _ _ _ both made ihl ihr =>
    rw [made.signedWeight, both.signedWeight, ihl, ihr]
    simp only [Formula.signedWeight, BinaryOp.weight]
    omega

/-- The formula made of two operands weighs what the operator makes of their weights. -/
theorem Formula.Made.weight {op : BinaryOp} {l r g : Formula α} (h : Made op l r g)
    (x : α → Nat) : g.weight x = op.weight (l.weight x) (r.weight x) := by
  rw [← signedWeight_self, ← signedWeight_self, ← signedWeight_self]
  exact h.signedWeight x x

/-- Negation keeps the weight over atoms. -/
theorem Formula.Negates.weight {f g : Formula α} (h : Negates f g) (x : α → Nat) :
    g.weight x = f.weight x := by
  rw [← signedWeight_self, ← signedWeight_self]
  exact h.signedWeight x x

/-- What is built from an expression weighs what the expression weighs. -/
theorem Expression.Built.signedWeight [BEq α] [LawfulBEq α] {e : Expression α} {f : Formula α}
    (h : e.Built f) (x y : α → Nat) : f.signedWeight x y = e.signedWeight x y := by
  induction h generalizing x y with
  | tt | ff => rfl
  | prop _ h =>
    rw [eq_of_beq h]
    rfl
  | not _ neg ih => rw [neg.signedWeight, ih]; rfl
  | next _ _ ih =>
    simp only [Formula.signedWeight, Expression.signedWeight, ih]
  | always _ _ made ih | eventually _ _ made ih =>
    rw [made.signedWeight, ih]
    simp only [Formula.signedWeight, Expression.signedWeight, BinaryOp.weight]
    omega
  | binary _ _ made ih ih' => rw [made.signedWeight, ih, ih']; rfl
  | implies _ _ neg made ih ih' => rw [made.signedWeight, neg.signedWeight, ih, ih']; rfl

/-! ## §2. Rules that lighten -/

/-- The replacement weighs less than the pattern, whatever the placeholders
    weigh. -/
def Rule.Lightens (rule : Rule) : Prop :=
  ∀ x : String → Nat, (∀ name, 0 < x name) → rule.replacement.weight x < rule.pattern.weight x

/-- So it is whatever the negations of the placeholders weigh. -/
def Rule.LightensSigned (rule : Rule) : Prop :=
  ∀ x y : String → Nat, (∀ name, 0 < x name) → (∀ name, 0 < y name) →
    rule.replacement.signedWeight x y < rule.pattern.signedWeight x y

/-- A rule that lightens whatever the negations weigh lightens when they weigh the same. -/
theorem Rule.LightensSigned.lightens {rule : Rule} (h : rule.LightensSigned) : rule.Lightens := by
  intro x hx
  rw [← Formula.signedWeight_self, ← Formula.signedWeight_self]
  exact h x x hx hx

/-- The formula stays as it is or gets lighter. -/
def Formula.StaysOrLightens (f g : Formula α) : Prop := g = f ∨ g.mass < f.mass

/-- The formula stays as it is or gets lighter, for all these weights of propositions and
    negated propositions. -/
def Formula.StaysOrDrops (W : (α → Nat) → (α → Nat) → Prop) (f g : Formula α) : Prop :=
  g = f ∨ ∀ x y, W x y → g.signedWeight x y < f.signedWeight x y

/-- A placeholder and its negation weigh what the formula bound to it weighs, and its
    negation. -/
def Bindings.Weighs (b : Bindings α) (x y : α → Nat) (u v : String → Nat) : Prop :=
  ∀ name f, b.lookup name = some f → u name = f.signedWeight x y ∧ v name = f.signedWeight y x

/-- A matched formula weighs what its pattern does, with the placeholders weighing what they are
    bound to. -/
theorem Bindings.Matches.signedWeight {b : Bindings α} {x y : α → Nat} {u v : String → Nat}
    (hb : b.Weighs x y u v) {p : Formula String} {f : Formula α} (h : b.Matches p f) :
    f.signedWeight x y = p.signedWeight u v := by
  induction h with
  | prop h => exact (hb _ _ h).1.symm
  | tt | ff => rfl
  | negProp _ _ h => exact (hb _ _ h).2.symm
  | next _ _ _ ih => simp only [Formula.signedWeight, ih]
  | straight _ _ op _ _ ihp ihq => simp only [Formula.signedWeight, ihp, ihq]
  | @crossed _ _ op hop _ _ _ _ _ _ ihq ihp =>
    cases op with
    | conj | disj => simp only [Formula.signedWeight, BinaryOp.weight, ihp, ihq]; omega
    | strongUntil | release | weakUntil => cases hop

/-- So does a formula that fills a pattern. -/
theorem Bindings.Filled.signedWeight {b : Bindings α} {x y : α → Nat} {u v : String → Nat}
    (hb : b.Weighs x y u v) {p : Formula String} {f : Formula α} (h : b.Filled p f) :
    f.signedWeight x y = p.signedWeight u v := by
  induction h with
  | prop h => exact (hb _ _ h).1.symm
  | tt | ff => rfl
  | negProp h neg =>
    rw [neg.signedWeight]
    exact (hb _ _ h).2.symm
  | next _ _ _ ih => simp only [Formula.signedWeight, ih]
  | binary _ _ _ made ihp ihq => rw [made.signedWeight, ihp, ihq]; rfl

/-- Both sides of a rule weigh what their instances weigh. -/
theorem Rule.Rewrites.exists_weights {rule : Rule} {f g : Formula α} (h : rule.Rewrites f g)
    {x y : α → Nat} (hx : ∀ a, 0 < x a) (hy : ∀ a, 0 < y a) :
    ∃ u v : String → Nat, (∀ name, 0 < u name) ∧ (∀ name, 0 < v name)
      ∧ (x = y → u = v)
      ∧ f.signedWeight x y = rule.pattern.signedWeight u v
      ∧ g.signedWeight x y = rule.replacement.signedWeight u v := by
  obtain ⟨b, hmatches, hfilled⟩ := h
  have hb : b.Weighs x y (fun name => (b.given name).signedWeight x y)
      (fun name => (b.given name).signedWeight y x) := by
    intro name f hf
    show (b.given name).signedWeight x y = _ ∧ (b.given name).signedWeight y x = _
    rw [Bindings.given_of_lookup hf]
    exact ⟨rfl, rfl⟩
  -- unbound names weigh something as well
  refine ⟨_, _, fun _ => Formula.signedWeight_pos hx hy _,
    fun _ => Formula.signedWeight_pos hy hx _, ?_, hmatches.signedWeight hb,
    hfilled.signedWeight hb⟩
  rintro rfl
  rfl

/-- Rewriting by a rule that lightens makes a formula lighter. -/
theorem Rule.Rewrites.mass_lt {rule : Rule} (h : rule.Lightens) {f g : Formula α}
    (hfg : rule.Rewrites f g) : g.mass < f.mass := by
  have hone : ∀ a : α, 0 < (fun _ => 1) a := fun _ => Nat.one_pos
  obtain ⟨u, v, hu, -, huv, hf, hg⟩ := hfg.exists_weights hone hone
  obtain rfl := huv rfl
  unfold Formula.mass
  rw [← Formula.signedWeight_self, ← Formula.signedWeight_self, hf, hg,
    Formula.signedWeight_self, Formula.signedWeight_self]
  exact h u hu

/-- Rewriting by such a rule makes a formula lighter, whatever the literals weigh. -/
theorem Rule.Rewrites.signedWeight_lt {rule : Rule} (h : rule.LightensSigned) {f g : Formula α}
    (hfg : rule.Rewrites f g) {x y : α → Nat} (hx : ∀ a, 0 < x a) (hy : ∀ a, 0 < y a) :
    g.signedWeight x y < f.signedWeight x y := by
  obtain ⟨u, v, hu, hv, -, hf, hg⟩ := hfg.exists_weights hx hy
  rw [hf, hg]
  exact h u v hu hv

variable [BEq α]

/-- Applying an operator to the operands of a shared formula gives it back. -/
theorem Formula.Made.eq_of_mem {s : Session α} (hs : s.Canonical) {id : Nat} {op : BinaryOp}
    {l r g : Formula α} (h : Made op l r g) (hf : .binary id op l r ∈ s.interned)
    (hg : g ∈ s.interned) : g = .binary id op l r := by
  cases h with
  | plain => exact hs.binary_eq hg hf
  | swapped id' _ _ hop => exact hs.binary_eq_crossed hop hg hf
  | weak | weakSwapped =>
    -- a shared release is no weak until
    have hself : l.same l = true := beq_self_eq_true _
    have hnone := (hs.shaped _ hf).2 rfl
    simp only [Build.alternativeTo?, hself, if_true] at hnone
    first
    | cases hnone
    | split at hnone <;> cases hnone

variable [EquivBEq α]

/-- A pass with rules that lighten leaves a formula as it is or lightens it, whatever the
    weights are. -/
theorem Rule.kept_drops {rules : List Rule} {W : (α → Nat) → (α → Nat) → Prop}
    (h : ∀ rule ∈ rules, ∀ f g : Formula α, rule.Rewrites f g → ∀ x y, W x y →
      g.signedWeight x y < f.signedWeight x y) :
    Rule.Kept (α := α) Session.Canonical rules (Formula.StaysOrDrops W) where
  refl f := .inl rfl
  trans hfg hgh := by
    rcases hfg with rfl | hfg
    · exact hgh
    · rcases hgh with rfl | hgh
      · exact .inr hfg
      · exact .inr fun x y hxy => (hgh x y hxy).trans (hfg x y hxy)
  rewrites rule hr f g hfg := .inr (h rule hr f g hfg)
  next hs id f f' hf hf' hff' := by
    refine (Build.next_leads hs hf').keeping ?_
    rintro g t ht hkeep ⟨hg, id', rfl⟩
    refine ⟨hg, ?_⟩
    -- An operand that stays gives the same formula again; one that drops makes it lighter.
    rcases hff' with rfl | hlt
    · exact .inl (ht.shared _ hg _ (hkeep _ hf) (by simp [Formula.sameShape, Formula.same]))
    · exact .inr fun x y hxy => Nat.succ_lt_succ (hlt x y hxy)
  binary hs id op l r l' r' hf hl' hr' hl hr := by
    refine (Build.binary_leads hs op hl' hr').keeping ?_
    rintro g t ht hkeep ⟨hg, made⟩
    refine ⟨hg, ?_⟩
    rcases hl with rfl | hl <;> rcases hr with rfl | hr
    · exact .inl (made.eq_of_mem ht (hkeep _ hf) hg)
    all_goals
      refine .inr fun x y hxy => ?_
      rw [made.signedWeight]
    · exact op.weight_lt (le_refl _) (hr x y hxy).le (.inr (hr x y hxy))
    · exact op.weight_lt (hl x y hxy).le (le_refl _) (.inl (hl x y hxy))
    · exact op.weight_lt (hl x y hxy).le (hr x y hxy).le (.inl (hl x y hxy))

omit [BEq α] [EquivBEq α] in
/-- Getting lighter is a drop if all atoms weigh `1`. -/
theorem Formula.staysOrDrops_one :
    StaysOrDrops (α := α) (fun x y => x = (fun _ => 1) ∧ y = fun _ => 1) = StaysOrLightens := by
  funext f g
  have hmass (f : Formula α) : f.signedWeight (fun _ => 1) (fun _ => 1) = f.mass :=
    signedWeight_self _ f
  refine propext (or_congr_right ⟨fun h => ?_, fun h x y hxy => ?_⟩)
  · have hlt := h _ _ ⟨rfl, rfl⟩
    rwa [hmass, hmass] at hlt
  · obtain ⟨rfl, rfl⟩ := hxy
    rwa [hmass, hmass]

/-- Under rules that lighten, a formula stays as it is or gets lighter. -/
theorem Rule.kept_lightens {rules : List Rule} (h : ∀ rule ∈ rules, rule.Lightens) :
    Rule.Kept (α := α) Session.Canonical rules Formula.StaysOrLightens := by
  rw [← Formula.staysOrDrops_one]
  refine Rule.kept_drops fun rule hrule f g hfg x y hxy => ?_
  obtain ⟨rfl, rfl⟩ := hxy
  rw [Formula.signedWeight_self, Formula.signedWeight_self]
  exact hfg.mass_lt (h rule hrule)

/-! ## §3. The built-in rules -/

/-- The right side of every default law weighs less than its left side. -/
theorem standardLaws_lighten : ∀ law ∈ RuleTable.standardLaws, ∀ x y : String → Nat,
    (∀ name, 0 < x name) → (∀ name, 0 < y name) →
    law.2.signedWeight x y < law.1.signedWeight x y := by
  intro law hlaw x y hx hy
  have hp := hx "p"
  have hp' := hy "p"
  unfold RuleTable.standardLaws at hlaw
  revert law
  simp only [List.forall_mem_cons, Expression.signedWeight, BinaryOp.weight]
  simp only [List.not_mem_nil, false_imp_iff, implies_true]
  and_intros <;> first | trivial | omega

/-- So every default rule lightens. -/
theorem standard_lightensSigned (stamp : Nat) :
    ∀ rule ∈ (RuleTable.standard stamp).1.rules, rule.LightensSigned := by
  intro rule hrule x y hx hy
  obtain ⟨law, hlaw, hpattern, hreplacement⟩ := standard_builtFrom stamp rule hrule
  rw [hpattern.signedWeight, hreplacement.signedWeight]
  exact standardLaws_lighten law hlaw x y hx hy

/-- The built-in rules lighten. -/
theorem standard_lightens (stamp : Nat) :
    ∀ rule ∈ (RuleTable.standard stamp).1.rules, rule.Lightens :=
  fun rule hrule => (standard_lightensSigned stamp rule hrule).lightens

/-! ## §4. Passes -/

/-- Every second pass but the last one lightens the formula. -/
theorem Rule.settle?_isSome {rules : List Rule} (h : ∀ rule ∈ rules, rule.Lightens)
    (passes : Nat) (negated : Bool) {s : Session α} (hs : s.Canonical) {f : Formula α}
    (hf : f ∈ s.interned) (hpasses : 2 * f.mass + (if negated then 0 else 1) < passes) :
    Build.Leads Session.Canonical (settle? rules passes negated f) s fun r _ => r.isSome := by
  induction passes generalizing negated s f with
  | zero => omega
  | succ passes ih =>
    refine (pass_leads (kept_lightens h) hs hf).bind ?_
    rintro g t ht - ⟨hg, hfg⟩
    refine (Build.not_leads ht hg).bind ?_
    rintro n u hu - ⟨hn, hneg⟩
    have hmass : n.mass = g.mass := hneg.weight _
    split
    next => exact .pure hu rfl
    next hgo =>
      refine ih (!negated) hu hn ?_
      cases negated with
      | false =>
        simp only [Bool.not_false, if_true, Bool.false_eq_true, if_false] at hpasses ⊢
        rcases hfg with rfl | hfg <;> omega
      | true =>
        -- a pass over the negation that changes nothing is the last one
        have hne : g ≠ f := by
          rintro rfl
          simp [Formula.same] at hgo
        have hlt : g.mass < f.mass := hfg.resolve_left hne
        simp only [Bool.not_true, if_true, Bool.false_eq_true, if_false] at hpasses ⊢
        omega

omit [BEq α] [EquivBEq α] in
theorem Formula.size_pos (f : Formula α) : 0 < f.size := by
  cases f <;> simp [size]

omit [BEq α] [EquivBEq α] in
/-- A formula of a size weighs at most this power of two. -/
theorem Formula.mass_le (f : Formula α) : f.mass ≤ 2 ^ f.size := by
  unfold mass
  induction f with
  | tt | ff | prop => simp [weight, size]
  | negProp => simp [weight, size]
  | next id f ih =>
    have := Nat.one_le_two_pow (n := f.size)
    simp only [weight, size, Nat.pow_succ]
    omega
  | binary id op l r ihl ihr =>
    have hl : 2 ≤ 2 ^ l.size := by
      simpa using Nat.pow_le_pow_right (n := 2) (by decide) l.size_pos
    have hr : 2 ≤ 2 ^ r.size := by
      simpa using Nat.pow_le_pow_right (n := 2) (by decide) r.size_pos
    -- A product of two numbers from `2` on is no less than their sum.
    have hbound : l.weight (fun _ => 1) + 2 * r.weight (fun _ => 1) + 2
        ≤ 2 * (2 ^ l.size * 2 ^ r.size) := by nlinarith
    have hop : op.weight (l.weight fun _ => 1) (r.weight fun _ => 1)
        ≤ l.weight (fun _ => 1) + 2 * r.weight (fun _ => 1) + 2 := by
      cases op <;> simp only [BinaryOp.weight] <;> omega
    simp only [weight, size]
    rw [Nat.pow_succ, Nat.pow_add]
    omega

omit [BEq α] [EquivBEq α] in
/-- The limit on passes is larger than any number that the weight allows for. -/
theorem Rule.mass_lt_passLimit (f : Formula α) : 2 * f.mass + 1 < passLimit f := by
  have hmass := f.mass_le
  have hsize : 2 ≤ 2 ^ f.size := by
    simpa using Nat.pow_le_pow_right (n := 2) (by decide) f.size_pos
  have hfour : 4 ^ f.size = 2 ^ f.size * 2 ^ f.size := by rw [← Nat.mul_pow]
  unfold passLimit
  rw [Nat.pow_eq, Nat.pow_eq, hfour]
  nlinarith

/-- Passes with the built-in rules settle before their limit is reached. -/
theorem RuleTable.settles (stamp : Nat) {s : Session α} (hs : s.Canonical) {f : Formula α}
    (hf : f ∈ s.interned) :
    (Rule.settle? (standard stamp).1.rules (Rule.passLimit f) false f s).1.isSome :=
  (Rule.settle?_isSome (standard_lightens stamp) _ false hs hf (Rule.mass_lt_passLimit f)).result

end LinearTime
