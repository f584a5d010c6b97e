/-
  LinearTime.Proofs.OrderlyRules — replacements that do not depend on the order of
  operands.

  Conjunctions and disjunctions have their operands in the order in which these
  were built.  A rule with such an operator at its root may match one way round or
  the other, and bind its placeholders differently:

      ( p U q ) /\ ( r U q )      p and r change places
      p /\ ( p \/ q )             fits in one way only, as p is the smaller one

  In the first case the replacement `( p /\ r ) U q` is alike with `p` and `r`
  exchanged.  A rule for which one or the other can be read off its two sides is
  *orderly*; what it makes of a formula is determined by the formula up to
  likeness.

  Main results:
    * `Made.congr`, `Negates.congr` — constructors give alike results for alike
      operands.
    * `Instance.congr` — what is alike an instance is an instance.
    * `Rule.Rewrites.congr` — the replacements of an orderly rule are alike.
    * `standard_orderly` — the built-in rules are orderly.
-/

import LinearTime.Proofs.CompleteMatching
import LinearTime.Proofs.RuleTables

namespace LinearTime

variable {α : Type} [BEq α] [EquivBEq α]

/-! ## §1. Constructors over alike operands -/

namespace Formula

variable {op : BinaryOp} {f f' g g' l l' r r' : Formula α}

omit [EquivBEq α] in
/-- What is alike an operator over two formulas is made of it over formulas alike these. -/
theorem Alike.exists_made {i : Nat} (h : (binary i op l r).Alike g) :
    ∃ l' r', l.Alike l' ∧ r.Alike r' ∧ Made op l' r' g := by
  cases h with
  | straight _ j _ hl hr => exact ⟨_, _, hl, hr, .plain j op _ _⟩
  | crossed _ j hop hl hr => exact ⟨_, _, hl, hr, .swapped j _ _ hop⟩

/-- Over alike operands an operator gives alike formulas. -/
theorem Made.congr (h : Made op l r g) (h' : Made op l' r' g') (hg : g.Resolved)
    (hg' : g'.Resolved) (hl : l.Alike l') (hr : r.Alike r') : g.Alike g' := by
  cases h with
  | plain i => exact h'.alike hg hl hr
  | swapped i _ _ hop => exact (h'.comm hop).alike hg hr hl
  -- the release by a disjunction on one side is one on the other side, too
  | weak i k y =>
    obtain ⟨y', k', hy, hk, both⟩ := hr.exists_made
    exact both.alike_weakUntil h' hg' hy hk hl
  | weakSwapped i k y =>
    obtain ⟨k', y', hk, hy, both⟩ := hr.exists_made
    exact (both.comm rfl).alike_weakUntil h' hg' hy hk hl

/-- Alike formulas have alike negations. -/
theorem Negates.congr (h : Negates f g) (h' : Negates f' g') (hff' : f.Alike f')
    (hg : g.Resolved) (hg' : g'.Resolved) : g.Alike g' := by
  induction h generalizing f' g' with
  | tt i j =>
    cases hff'
    cases h'
    exact .ff j _
  | ff i j =>
    cases hff'
    cases h'
    exact .tt j _
  | prop i j a =>
    cases hff' with
    | prop _ i' hab =>
      cases h' with
      | prop _ j' => exact .negProp j j' i i' hab
  | negProp i j a =>
    cases hff' with
    | negProp _ j' _ i' hab =>
      cases h'
      exact .prop i i' hab
  | next i j _ ih =>
    cases hff' with
    | next _ i' hff' =>
      cases h' with
      | next _ j' h' => exact .next j j' (ih h' hff' hg hg')
  | @dual i op l r l' r' g hop _ _ made ihl ihr =>
    obtain ⟨hl, hr⟩ := made.resolved hg
    cases hff' with
    | straight _ i' _ hll' hrr' =>
      cases h' with
      | dual _ _ negl negr made' =>
        obtain ⟨hl', hr'⟩ := made'.resolved hg'
        exact made.congr made' hg hg' (ihl negl hll' hl hl') (ihr negr hrr' hr hr')
      | weak => exact absurd rfl hop
    | crossed _ i' hcomm hlr' hrl' =>
      cases h' with
      | dual _ _ negl negr made' =>
        obtain ⟨hl', hr'⟩ := made'.resolved hg'
        -- The dual of a commutative operator is commutative, so crossed operands stay
        -- crossed.
        have hdual : op.dual.isCommutative = true := by
          cases op <;> first | rfl | cases hcomm
        exact made.congr (made'.comm hdual) hg hg' (ihl negr hlr' hl hr') (ihr negl hrl' hr hl')
      | weak => exact absurd rfl hop
  | weak i _ _ both made ihl ihr =>
    obtain ⟨hr, hc⟩ := made.resolved hg
    obtain ⟨hl, -⟩ := both.resolved hc
    cases hff' with
    | straight _ i' _ hll' hrr' =>
      cases h' with
      | dual _ hop => exact absurd rfl hop
      | weak _ negl negr both' made' =>
        obtain ⟨hr', hc'⟩ := made'.resolved hg'
        obtain ⟨hl', -⟩ := both'.resolved hc'
        have halikel := ihl negl hll' hl hl'
        have haliker := ihr negr hrr' hr hr'
        exact made.congr made' hg hg' haliker (both.congr both' hc hc' halikel haliker)
    -- A weak until does not commute.
    | crossed _ _ hcomm => cases hcomm

end Formula

/-! ## §2. Instances and replacements -/

section Templates

variable {σ σ' : String → Formula α} {ρ : String → String} {b b' : Bindings α}
  {p p' q : Formula String} {f f' g g' : Formula α}

/-- The template with these names for its placeholders. -/
def Formula.rename (ρ : String → String) : Formula String → Formula String
  | .tt i => .tt i
  | .ff i => .ff i
  | .prop i name => .prop i (ρ name)
  | .negProp i k name => .negProp i k (ρ name)
  | .next i p => .next i (p.rename ρ)
  | .binary i op p q => .binary i op (p.rename ρ) (q.rename ρ)

theorem Formula.rename_self (p : Formula String) : p.rename (fun name => name) = p := by
  induction p with
  | tt | ff | prop | negProp => rfl
  | next i p ih => simp only [rename, ih]
  | binary i op p q ihp ihq => simp only [rename, ihp, ihq]

theorem Formula.rename_self_alike (p : Formula String) : (p.rename fun name => name).Alike p := by
  rw [rename_self]
  exact .refl p

/-- What is alike an instance is an instance, with the same for the placeholders. -/
theorem Formula.Instance.congr (h : p.Instance σ f) (hff' : f.Alike f') : p.Instance σ f' := by
  induction h generalizing f' with
  | prop i h => exact .prop i (h.trans hff')
  | tt i j =>
    cases hff'
    exact .tt i _
  | ff i j =>
    cases hff'
    exact .ff i _
  | negProp i k j propId h =>
    cases hff' with
    | negProp _ j' _ propId' hab => exact .negProp i k j' propId' (h.trans (.prop _ _ hab))
  | next i j _ ih =>
    cases hff' with
    | next _ j' hff' => exact .next i j' (ih hff')
  -- where the formula is crossed, so is the instance
  | straight i j op _ _ ihp ihq =>
    cases hff' with
    | straight _ j' _ hl hr => exact .straight i j' op (ihp hl) (ihq hr)
    | crossed _ j' hop hl hr => exact .crossed i j' hop (ihq hr) (ihp hl)
  | crossed i j hop _ _ ihq ihp =>
    cases hff' with
    | straight _ j' _ hl hr => exact .crossed i j' hop (ihq hl) (ihp hr)
    | crossed _ j' _ hl hr => exact .straight i j' _ (ihp hr) (ihq hl)

/-- With alike formulas for the placeholders a pattern has alike instances. -/
theorem Formula.Instance.alike (h : p.Instance σ f) (h' : p.Instance σ' f')
    (hσ : ∀ name ∈ p.atoms, (σ name).Alike (σ' name)) : f.Alike f' := by
  induction h generalizing f' with
  | prop i h =>
    cases h' with
    | prop _ h' => exact (h.symm.trans (hσ _ List.mem_cons_self)).trans h'
  | tt i j =>
    cases h'
    exact .tt j _
  | ff i j =>
    cases h'
    exact .ff j _
  | negProp i k j propId h =>
    cases h' with
    | negProp _ _ j' propId' h' =>
      cases (h.symm.trans (hσ _ List.mem_cons_self)).trans h' with
      | prop _ _ hab => exact .negProp j j' propId propId' hab
  | next i j _ ih =>
    cases h' with
    | next _ j' h' => exact .next j j' (ih h' hσ)
  -- either of the two may have its operands crossed
  | straight i j op _ _ ihp ihq =>
    have hp := fun name hname => hσ name (mem_atoms_left _ hname)
    have hq := fun name hname => hσ name (mem_atoms_right _ hname)
    cases h' with
    | straight _ j' _ h'p h'q => exact .straight j j' op (ihp h'p hp) (ihq h'q hq)
    | crossed _ j' hop h'q h'p => exact .crossed j j' hop (ihp h'p hp) (ihq h'q hq)
  | crossed i j hop _ _ ihq ihp =>
    have hp := fun name hname => hσ name (mem_atoms_left _ hname)
    have hq := fun name hname => hσ name (mem_atoms_right _ hname)
    cases h' with
    | straight _ j' _ h'p h'q => exact .crossed j j' hop (ihq h'q hq) (ihp h'p hp)
    | crossed _ j' _ h'q h'p => exact .straight j j' _ (ihq h'q hq) (ihp h'p hp)

/-- The template has no operands that may be exchanged. -/
def Formula.rigid : Formula String → Bool
  | .tt _ | .ff _ | .prop _ _ | .negProp _ _ _ => true
  | .next _ p => p.rigid
  | .binary _ op p q => !op.isCommutative && p.rigid && q.rigid

/-- A rigid pattern determines what its placeholders stand for, whatever names they
    have. -/
theorem Formula.Instance.determines (h : p.Instance σ f) (hp : p.rigid = true)
    (h' : p'.Instance σ' f') (hpp' : (p.rename ρ).Alike p') (hff' : f.Alike f') :
    ∀ name ∈ p.atoms, (σ name).Alike (σ' (ρ name)) := by
  induction h generalizing p' f' with
  | @prop i name f h =>
    cases hpp' with
    | prop _ _ hname =>
      cases h' with
      | prop _ h' =>
        intro other hother
        rw [List.mem_singleton.1 hother, beq_iff_eq.1 hname]
        exact (h.trans hff').trans h'.symm
  | tt | ff => exact fun name hname => absurd hname List.not_mem_nil
  | @negProp i k name j propId a h =>
    cases hpp' with
    | negProp _ _ _ _ hname =>
      cases hff' with
      | negProp _ _ _ _ hab =>
        cases h' with
        | negProp _ _ _ propId' h' =>
          intro other hother
          rw [List.mem_singleton.1 hother, beq_iff_eq.1 hname]
          exact (h.trans (.prop _ _ hab)).trans h'.symm
  | next i j _ ih =>
    cases hpp' with
    | next _ _ hpp' =>
      cases hff' with
      | next _ _ hff' =>
        cases h' with
        | next _ _ h' => exact ih hp h' hpp' hff'
  | straight i j op _ _ ihp ihq =>
    simp only [rigid, Bool.and_eq_true, Bool.not_eq_true'] at hp
    obtain ⟨⟨hop, hrigidp⟩, hrigidq⟩ := hp
    -- A rigid pattern has no commutative operator: operands correspond in order.
    have hfixed {P : Prop} (hcomm : op.isCommutative = true) : P := by
      rw [hop] at hcomm
      cases hcomm
    cases hpp' with
    | crossed _ _ hcomm => exact hfixed hcomm
    | straight _ _ _ hpp' hqq' =>
      cases hff' with
      | crossed _ _ hcomm => exact hfixed hcomm
      | straight _ _ _ hll' hrr' =>
        cases h' with
        | crossed _ _ hcomm => exact hfixed hcomm
        | straight _ _ _ h'p h'q =>
          exact List.forall_mem_append.2
            ⟨ihp hrigidp h'p hpp' hll', ihq hrigidq h'q hqq' hrr'⟩
  | crossed i j hop =>
    simp only [rigid, hop, Bool.not_true, Bool.false_and, Bool.false_eq_true] at hp

/-- Two replacements are alike if the templates are, up to the names of placeholders, and
    these are bound to alike formulas. -/
theorem Bindings.Filled.congr (h : Filled b p g) (h' : Filled b' p' g')
    (hpp' : (p.rename ρ).Alike p')
    (hb : ∀ name ∈ p.atoms, ∀ k k', b.lookup name = some k → b'.lookup (ρ name) = some k' →
      k.Alike k') (hg : g.Resolved) (hg' : g'.Resolved) : g.Alike g' := by
  induction h generalizing p' g' with
  | prop h =>
    cases hpp' with
    | prop _ _ hname =>
      cases h' with
      | prop h' =>
        rw [← beq_iff_eq.1 hname] at h'
        exact hb _ List.mem_cons_self _ _ h h'
  | tt i j =>
    cases hpp'
    cases h'
    exact .tt j _
  | ff i j =>
    cases hpp'
    cases h'
    exact .ff j _
  | negProp h neg =>
    cases hpp' with
    | negProp _ _ _ _ hname =>
      cases h' with
      | negProp h' neg' =>
        rw [← beq_iff_eq.1 hname] at h'
        exact neg.congr neg' (hb _ List.mem_cons_self _ _ h h') hg hg'
  | next i j _ ih =>
    cases hpp' with
    | next _ _ hpp' =>
      cases h' with
      | next _ j' h' => exact .next j j' (ih h' hpp' hb hg hg')
  | binary i _ _ made ihp ihq =>
    obtain ⟨hl, hr⟩ := made.resolved hg
    have hp := fun name hname => hb name (Formula.mem_atoms_left _ hname)
    have hq := fun name hname => hb name (Formula.mem_atoms_right _ hname)
    cases hpp' with
    | straight _ _ _ hpp' hqq' =>
      cases h' with
      | binary _ h'p h'q made' =>
        obtain ⟨hl', hr'⟩ := made'.resolved hg'
        exact made.congr made' hg hg' (ihp h'p hpp' hp hl hl') (ihq h'q hqq' hq hr hr')
    | crossed _ _ hop hpq' hqp' =>
      cases h' with
      | binary _ h'p h'q made' =>
        obtain ⟨hl', hr'⟩ := made'.resolved hg'
        exact made.congr (made'.comm hop) hg hg' (ihp h'q hpq' hp hl hr')
          (ihq h'p hqp' hq hr hl')

/-! ## §3. Orderly rules -/

omit [BEq α] [EquivBEq α] in
theorem Formula.size_lt_of_mem_operands (f : Formula α) : ∀ g ∈ f.operands, g.size < f.size := by
  cases f with
  | tt | ff | prop => exact nofun
  | negProp i k a => exact List.forall_mem_singleton.2 (Nat.lt_succ_self 1)
  | next i f => exact List.forall_mem_singleton.2 (Nat.lt_succ_self f.size)
  | binary i op l r =>
    refine List.forall_mem_cons.2 ⟨?_, List.forall_mem_singleton.2 ?_⟩ <;>
      simp only [size] <;> omega

omit [EquivBEq α] in
/-- What a placeholder stands for is smaller than an instance of a pattern around it. -/
theorem Formula.Instance.size_lt (h : p.Instance σ f) (hp : p.atom? = none) {name : String}
    (hname : name ∈ p.atoms) : (σ name).size < f.size := by
  have hU (f : Formula α) (_ : True) (g : Formula α) (hg : g ∈ f.operands) :
      True ∧ g.size < f.size :=
    ⟨trivial, f.size_lt_of_mem_operands g hg⟩
  obtain ⟨g, -, hg, -, hlt⟩ := h.exists_below hU trivial hname
  rw [hg.size_eq]
  exact hlt hp

omit [EquivBEq α] in
/-- Two ways to see one formula as an instance have the operands one way round or the
    other. -/
theorem Formula.Instance.operands {i : Nat} {op : BinaryOp} (h : (binary i op p q).Instance σ f)
    (h' : (binary i op p q).Instance σ' f) :
    ∃ k k', p.Instance σ k ∧ q.Instance σ k'
      ∧ ((p.Instance σ' k ∧ q.Instance σ' k') ∨ (q.Instance σ' k ∧ p.Instance σ' k')) := by
  cases h with
  | straight _ _ _ hp hq =>
    cases h' with
    | straight _ _ _ h'p h'q => exact ⟨_, _, hp, hq, .inl ⟨h'p, h'q⟩⟩
    | crossed _ _ _ h'q h'p => exact ⟨_, _, hp, hq, .inr ⟨h'q, h'p⟩⟩
  | crossed _ _ _ hq hp =>
    cases h' with
    | straight _ _ _ h'p h'q => exact ⟨_, _, hp, hq, .inr ⟨h'q, h'p⟩⟩
    | crossed _ _ _ h'q h'p => exact ⟨_, _, hp, hq, .inl ⟨h'p, h'q⟩⟩

namespace Rule

/-- The names of one pattern for those of the other, in the order in which they occur. -/
def exchange (p q : Formula String) (name : String) : String :=
  ((p.atoms.zip q.atoms ++ q.atoms.zip p.atoms).lookup name).getD name

/-- Exchanging their names makes each of the two patterns the other one, and leaves the
    replacement as it is. -/
def exchangeable (p q replacement : Formula String) : Bool :=
  p.rigid && q.rigid && (p.rename (exchange p q)).isAlike q && (q.rename (exchange p q)).isAlike p
    && (replacement.rename (exchange p q)).isAlike replacement

/-- The first pattern is a placeholder, the only one that the replacement has, and the
    second one has it inside or has no placeholders at all. -/
def oneWay (p q replacement : Formula String) : Bool :=
  match p with
  | .prop _ name =>
    (q.atoms.isEmpty || q.isPlaceholderIn p) && replacement.atoms.all (· == name)
  | _ => false

/-- The replacement is the same whichever way round the operands of the pattern are. -/
def orderly (rule : Rule) : Bool :=
  rule.replacement.atoms.isEmpty || rule.pattern.rigid ||
    match rule.pattern with
    | .binary _ _ p q => exchangeable p q rule.replacement || oneWay p q rule.replacement
    | _ => false

/-- The names of the template stand for alike formulas, up to a renaming that leaves the
    template as it is. -/
def SameFor (p : Formula String) (σ σ' : String → Formula α) : Prop :=
  ∃ ρ, (p.rename ρ).Alike p ∧ ∀ name ∈ p.atoms, (σ name).Alike (σ' (ρ name))

omit [EquivBEq α] in
theorem SameFor.of_alike (h : ∀ name ∈ p.atoms, (σ name).Alike (σ' name)) : SameFor p σ σ' :=
  ⟨fun name => name, p.rename_self_alike, h⟩

variable {i : Nat} {op : BinaryOp} {replacement : Formula String}

/-- Operands that can be exchanged may be bound either way round. -/
theorem sameFor_of_exchangeable (hp : exchangeable p q replacement = true)
    (hnames : ∀ name ∈ replacement.atoms, name ∈ (Formula.binary i op p q).atoms)
    (hσ : (Formula.binary i op p q).Instance σ f) (hσ' : (Formula.binary i op p q).Instance σ' f) :
    SameFor replacement σ σ' := by
  simp only [exchangeable, Bool.and_eq_true, Formula.isAlike_iff] at hp
  obtain ⟨⟨⟨⟨hrigidp, hrigidq⟩, hpq⟩, hqp⟩, hsame⟩ := hp
  obtain ⟨k, k', hσp, hσq, ⟨hσ'p, hσ'q⟩ | ⟨hσ'q, hσ'p⟩⟩ := hσ.operands hσ'
  · have halike := List.forall_mem_append.2
      ⟨hσp.determines hrigidp hσ'p p.rename_self_alike (.refl k),
        hσq.determines hrigidq hσ'q q.rename_self_alike (.refl k')⟩
    exact .of_alike fun name hname => halike name (hnames name hname)
  · have halike := List.forall_mem_append.2
      ⟨hσp.determines hrigidp hσ'q hpq (.refl k), hσq.determines hrigidq hσ'p hqp (.refl k')⟩
    exact ⟨exchange p q, hsame, fun name hname => halike name (hnames name hname)⟩

/-- Operands of which one is inside the other are bound one way round only, and it does
    not matter if one of them is constant. -/
theorem sameFor_of_oneWay (hp : oneWay p q replacement = true)
    (hσ : (Formula.binary i op p q).Instance σ f) (hσ' : (Formula.binary i op p q).Instance σ' f) :
    SameFor replacement σ σ' := by
  unfold oneWay at hp
  split at hp
  next j name =>
    obtain ⟨hq, hall⟩ := Bool.and_eq_true_iff.1 hp
    have hsame (halike : (σ name).Alike (σ' name)) : SameFor replacement σ σ' := by
      refine .of_alike fun other hother => ?_
      rw [beq_iff_eq.1 (List.all_eq_true.1 hall other hother)]
      exact halike
    -- Either both instances bind the name to the same operand, or to one each.
    obtain ⟨k, k', hσp, hσq, hσ'⟩ := hσ.operands hσ'
    cases hσp with
    | prop _ hk =>
      rcases hσ' with ⟨hσ'p, -⟩ | ⟨hσ'q, hσ'p⟩
      · cases hσ'p with
        | prop _ hk' => exact hsame (hk.trans hk'.symm)
      · cases hσ'p with
        | prop _ hk' =>
          rcases Bool.or_eq_true_iff.1 hq with hconst | hinside
          · have halike : k.Alike k' := by
              refine hσ'q.alike hσq fun other hother => ?_
              rw [List.isEmpty_iff.1 hconst] at hother
              cases hother
            exact hsame ((hk.trans halike).trans hk'.symm)
          · -- each of the two operands would be smaller than the other one
            obtain ⟨hatom, hmem⟩ := Bool.and_eq_true_iff.1 hinside
            have hatom := Option.isNone_iff_eq_none.1 hatom
            have hmem := List.mem_of_elem_eq_true hmem
            have hlt := hσq.size_lt hatom hmem
            have hlt' := hσ'q.size_lt hatom hmem
            rw [hk.size_eq] at hlt
            rw [hk'.size_eq] at hlt'
            omega
  next => cases hp

theorem sameFor_of_orderly {rule : Rule} (hwell : rule.WellFormed) (h : rule.orderly = true)
    (hσ : rule.pattern.Instance σ f) (hσ' : rule.pattern.Instance σ' f) :
    SameFor rule.replacement σ σ' := by
  have hnames := hwell.atoms_subset
  revert h hσ hσ' hnames
  unfold orderly
  generalize rule.pattern = pattern
  generalize rule.replacement = replacement
  intro h hσ hσ' hnames
  -- A constant replacement, a rigid pattern, or two operands that may change places.
  rcases Bool.or_eq_true_iff.1 h with h | h
  · rcases Bool.or_eq_true_iff.1 h with h | h
    · refine .of_alike fun name hname => ?_
      rw [List.isEmpty_iff.1 h] at hname
      cases hname
    · exact .of_alike fun name hname =>
        hσ.determines h hσ' pattern.rename_self_alike (.refl f) name (hnames name hname)
  · split at h
    next i op p q =>
      rcases Bool.or_eq_true_iff.1 h with h | h
      · exact sameFor_of_exchangeable h hnames hσ hσ'
      · exact sameFor_of_oneWay h hσ hσ'
    next => cases h

/-- The replacements of an orderly rule for alike formulas are alike, whichever matches
    they come from. -/
theorem Rewrites.congr {rule : Rule} (hwell : rule.WellFormed) (horderly : rule.orderly = true)
    (h : rule.Rewrites f g) (h' : rule.Rewrites f' g') (hff' : f.Alike f') (hg : g.Resolved)
    (hg' : g'.Resolved) : g.Alike g' := by
  obtain ⟨b, hmatches, hfilled⟩ := h
  obtain ⟨b', hmatches', hfilled'⟩ := h'
  obtain ⟨ρ, hρ, halike⟩ := sameFor_of_orderly hwell horderly
    (hmatches.instance_given.congr hff') hmatches'.instance_given
  refine hfilled.congr hfilled' hρ ?_ hg hg'
  intro name hname k k' hk hk'
  have hnames := halike name hname
  rwa [Bindings.given_of_lookup hk, Bindings.given_of_lookup hk'] at hnames

/-- The built-in rules are orderly. -/
theorem standard_orderly (stamp : Nat) :
    ∀ rule ∈ (RuleTable.standard stamp).1.rules, rule.orderly = true := by
  rw [RuleTable.standard_rules]
  decide +kernel

end Rule
end Templates
end LinearTime
