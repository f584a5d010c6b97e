/-
  LinearTime.Proofs.CompleteMatching — which instances of a pattern are found.

  A formula is an instance of a pattern if formulas can be put for the
  placeholders so that the two are alike: the same tree, operands of conjunctions
  and disjunctions exchanged at will (`Instance`).  Matching tries operands
  crosswise only where the straight attempt fails, and never comes back to a
  choice that it made.  So an instance is missed if a conjunction matches both
  ways and what stands outside of it needs the other one:

      ( p /\ q ) U p      against      ( a /\ b ) U b

  A pattern is *steady* if no such choice matters: whatever a conjunction or
  disjunction binds is bound before or not needed later, or its operands cannot be
  exchanged at all, as one of them is a part of the other.

  Main results:
    * `Bindings.exists_extend?` — steady patterns are matched, whatever is bound
      before.
    * `match_found_iff` — for steady patterns, those without repeated placeholders
      and the built-in ones a match is found just for their instances.
    * `match_missed_until` — the pattern above misses an instance.
-/

import LinearTime.Proofs.DoubleNegation
import LinearTime.Proofs.Instances
import LinearTime.Proofs.Marks
import LinearTime.Proofs.Placeholders

namespace LinearTime

variable {α : Type}

/-! ## §1. Instances -/

/-- The formula is the pattern with its placeholders standing for these formulas, up to
    numbers and exchanged operands of conjunctions and disjunctions. -/
inductive Formula.Instance [BEq α] (σ : String → Formula α) : Formula String → Formula α → Prop
  | prop (i : Nat) {name : String} {f : Formula α} (h : (σ name).Alike f) :
    Instance σ (.prop i name) f
  | tt (i j : Nat) : Instance σ (.tt i) (.tt j)
  | ff (i j : Nat) : Instance σ (.ff i) (.ff j)
  | negProp (i k : Nat) {name : String} (j propId : Nat) {a : α}
    (h : (σ name).Alike (.prop propId a)) :
    Instance σ (.negProp i k name) (.negProp j propId a)
  | next (i j : Nat) {p : Formula String} {f : Formula α} (h : Instance σ p f) :
    Instance σ (.next i p) (.next j f)
  | straight (i j : Nat) (op : BinaryOp) {p q : Formula String} {f g : Formula α}
    (hp : Instance σ p f) (hq : Instance σ q g) :
    Instance σ (.binary i op p q) (.binary j op f g)
  | crossed (i j : Nat) {op : BinaryOp} (hop : op.isCommutative = true)
    {p q : Formula String} {f g : Formula α} (hq : Instance σ q f) (hp : Instance σ p g) :
    Instance σ (.binary i op p q) (.binary j op f g)

variable {s : Session α} {b c : Bindings α} {σ : String → Formula α}
  {p q : Formula String} {f g : Formula α}

/-- What is matched is an instance. -/
theorem Bindings.Matches.instance_given [BEq α] [EquivBEq α] (h : Matches b p f) :
    p.Instance b.given f := by
  have halike {name : String} {g : Formula α} (hg : b.lookup name = some g) :
      (b.given name).Alike g := by
    rw [given_of_lookup hg]
    exact .refl g
  induction h with
  | prop h => exact .prop _ (halike h)
  | tt i j => exact .tt i j
  | ff i j => exact .ff i j
  | negProp j propId h => exact .negProp _ _ j propId (halike h)
  | next i j _ ih => exact .next i j ih
  | straight i j op _ _ ihp ihq => exact .straight i j op ihp ihq
  | crossed i j hop _ _ ihq ihp => exact .crossed i j hop ihq ihp

/-- A placeholder stands for a part of the instance, and for a proper one if the pattern
    is more than the placeholder.  Whatever gets less from a formula to its operands is
    less for proper parts. -/
theorem Formula.Instance.exists_below [BEq α] {U : Formula α → Prop} {m : Formula α → Nat}
    (hU : ∀ f, U f → ∀ g ∈ f.operands, U g ∧ m g < m f) (h : p.Instance σ f) (hf : U f)
    {name : String} (hname : name ∈ p.atoms) :
    ∃ g, U g ∧ (σ name).Alike g ∧ m g ≤ m f ∧ (p.atom? = none → m g < m f) := by
  -- What lies below an operand lies properly below the formula.
  have habove {f k : Formula α} (hf : U f) (hk : k ∈ f.operands)
      {P : Formula α → Prop} (h : ∃ g, U g ∧ (σ name).Alike g ∧ m g ≤ m k ∧ P g) {Q : Prop} :
      ∃ g, U g ∧ (σ name).Alike g ∧ m g ≤ m f ∧ (Q → m g < m f) := by
    obtain ⟨g, hg, halike, hle, -⟩ := h
    have hlt := lt_of_le_of_lt hle (hU f hf k hk).2
    exact ⟨g, hg, halike, hlt.le, fun _ => hlt⟩
  induction h with
  | prop i h =>
    rw [List.mem_singleton.1 hname]
    exact ⟨_, hf, h, le_refl _, nofun⟩
  | tt | ff => exact absurd hname List.not_mem_nil
  | negProp i k j propId h =>
    rw [List.mem_singleton.1 hname]
    obtain ⟨hprop, hlt⟩ := hU _ hf _ (.head _)
    exact ⟨_, hprop, h, hlt.le, fun _ => hlt⟩
  | next i j _ ih => exact habove hf (.head _) (ih (hU _ hf _ (.head _)).1 hname)
  | straight i j op _ _ ihp ihq =>
    rcases List.mem_append.1 hname with hname | hname
    · exact habove hf (.head _) (ihp (hU _ hf _ (.head _)).1 hname)
    · exact habove hf (.tail _ (.head _)) (ihq (hU _ hf _ (.tail _ (.head _))).1 hname)
  | crossed i j hop _ _ ihq ihp =>
    rcases List.mem_append.1 hname with hname | hname
    · exact habove hf (.tail _ (.head _)) (ihp (hU _ hf _ (.tail _ (.head _))).1 hname)
    · exact habove hf (.head _) (ihq (hU _ hf _ (.head _)).1 hname)

/-! ## §2. Steady patterns -/

namespace Formula

/-- The pattern is a placeholder that occurs in `q`, which is more than that. -/
def isPlaceholderIn (q : Formula String) : Formula String → Bool
  | prop _ name => q.atom?.isNone && q.atoms.contains name
  | _ => false

/-- In the pattern it does not matter which way round conjunctions and disjunctions are
    matched, if the names `bound` are bound before and the names `later` are met after
    it. -/
def steady : Formula String → (bound later : List String) → Bool
  | tt _, _, _ | ff _, _, _ | prop _ _, _, _ | negProp _ _ _, _, _ => true
  | next _ p, bound, later => p.steady bound later
  | binary _ op p q, bound, later =>
    let leftFirst := p.steady bound (q.atoms ++ later) && q.steady (p.atoms ++ bound) later
    let rightFirst := q.steady bound (p.atoms ++ later) && p.steady (q.atoms ++ bound) later
    match op with
    | .strongUntil | .weakUntil => leftFirst
    | .release => rightFirst
    | .conj | .disj =>
      leftFirst && (isPlaceholderIn q p || (rightFirst
        && later.all fun name => bound.contains name || !(p.atoms ++ q.atoms).contains name))

/-- A pattern in which no name occurs twice, nor later on, is steady. -/
theorem steady_of_nodup {bound later : List String} (h : p.atoms.Nodup)
    (hlater : ∀ name ∈ later, name ∉ p.atoms) : p.steady bound later = true := by
  induction p generalizing bound later with
  | tt | ff | prop | negProp => rfl
  | next i p ih => exact ih h hlater
  | binary i op p q ihp ihq =>
    obtain ⟨hp, hq, hdisjoint⟩ := List.nodup_append'.1 h
    have hlaterp : ∀ name ∈ later, name ∉ p.atoms :=
      fun name hname hmem => hlater name hname (mem_atoms_left q hmem)
    have hlaterq : ∀ name ∈ later, name ∉ q.atoms :=
      fun name hname hmem => hlater name hname (mem_atoms_right p hmem)
    -- Names occur once, so what is bound by one side has no bearing on the other.
    have hleftFirst : (p.steady bound (q.atoms ++ later) && q.steady (p.atoms ++ bound) later)
        = true := by
      refine Bool.and_eq_true_iff.2 ⟨ihp hp ?_, ihq hq hlaterq⟩
      exact List.forall_mem_append.2 ⟨fun name hname hmem => hdisjoint hmem hname, hlaterp⟩
    have hrightFirst : (q.steady bound (p.atoms ++ later) && p.steady (q.atoms ++ bound) later)
        = true := by
      refine Bool.and_eq_true_iff.2 ⟨ihq hq ?_, ihp hp hlaterp⟩
      exact List.forall_mem_append.2 ⟨fun name hname hmem => hdisjoint hname hmem, hlaterq⟩
    have hfree : (later.all fun name =>
        bound.contains name || !(p.atoms ++ q.atoms).contains name) = true := by
      refine List.all_eq_true.2 fun name hname => ?_
      have hnot : (p.atoms ++ q.atoms).contains name = false := by
        rw [List.contains_eq_mem, decide_eq_false_iff_not]
        exact hlater name hname
      rw [hnot, Bool.not_false, Bool.or_true]
    unfold steady
    cases op with
    | strongUntil | weakUntil => exact hleftFirst
    | release => exact hrightFirst
    | conj | disj => simp only [hleftFirst, hrightFirst, hfree, Bool.and_true, Bool.or_true]

/-- Instances of a placeholder and of what it occurs in cannot stand in this order: the
    operands of a shared conjunction or disjunction are ordered by age. -/
theorem Instance.not_isPlaceholderIn [BEq α] [EquivBEq α] (hp : p.Instance σ g)
    (hs : s.Canonical) (hg : g ∈ s.interned) (hq : q.Instance σ f) (hf : f ∈ s.interned)
    (hle : f.id ≤ g.id) : isPlaceholderIn q p = false := by
  cases hp with
  | @prop i name _ hg' =>
    refine Bool.eq_false_iff.2 fun h => ?_
    obtain ⟨hatom, hmem⟩ := Bool.and_eq_true_iff.1 h
    have hU (f : Formula α) (hf : f ∈ s.interned) (g : Formula α) (hg : g ∈ f.operands) :
        g ∈ s.interned ∧ g.id < f.id :=
      ⟨hs.operand_mem f hf g hg, hs.operand_lt f hf g hg⟩
    obtain ⟨k, hk, hk', -, hlt⟩ := hq.exists_below hU hf (List.mem_of_elem_eq_true hmem)
    -- what the placeholder stands for is `g`, and a proper part of `f`
    obtain rfl := hs.eq_of_alike hg hk (hg'.symm.trans hk')
    have hlt := hlt (Option.isNone_iff_eq_none.1 hatom)
    omega
  | tt | ff | negProp | next | straight | crossed => rfl

end Formula

namespace Bindings

variable [BEq α]

/-- The names, as far as they are bound, are bound to what is put for them. -/
def Agrees (names : List String) (b : Bindings α) (σ : String → Formula α) : Prop :=
  ∀ name ∈ names, ∀ f, b.lookup name = some f → (σ name).Alike f

omit [BEq α] in
/-- A name is bound to what is put for it unless it is bound to something else. -/
theorem exists_assign? {b : Bindings α} {name : String}
    (h : ∀ g, b.lookup name = some g → g = f) : ∃ c, b.assign? name f = some c := by
  unfold assign?
  cases hlookup : b.lookup name with
  | none => exact ⟨_, rfl⟩
  | some g =>
    have hsame : g.same f = true := Formula.same_iff.2 (congrArg Formula.id (h g hlookup))
    exact ⟨b, if_pos hsame⟩

variable [EquivBEq α] {names later bound : List String}

/-- Binding a name to what is put for it. -/
theorem Agrees.assign? {name : String} (hs : s.Canonical) (hb : b.Within s)
    (h : Agrees (name :: later) b σ) (hf : f ∈ s.interned) (hσ : (σ name).Alike f) :
    ∃ c, b.assign? name f = some c ∧ Agrees later c σ := by
  -- a name bound before is bound to this formula: alike ones of a session are one
  have hbound (g : Formula α) (hg : b.lookup name = some g) : g = f :=
    hs.eq_of_alike (hb name g hg) hf ((h name (.head _) g hg).symm.trans hσ)
  obtain ⟨c, hc⟩ := exists_assign? hbound
  refine ⟨c, hc, ?_⟩
  -- bindings of other names stay, the new one is what the solution gives
  intro other hother g hg
  have hwidens := assign?_widens hc
  rcases hwidens.within other g hg with hold | hnew
  · exact h other (.tail _ hother) g hold
  · obtain rfl := List.mem_singleton.1 hnew
    obtain ⟨-, -, hlookup⟩ := assign?_found hs.family hb hf hc
    rw [hlookup] at hg
    obtain rfl := Option.some.inj hg
    exact hσ

omit [EquivBEq α] in
/-- Any match leaves the names that are met later as they were put, if it does not bind
    them or they were bound before. -/
theorem Agrees.of_widens (h : Agrees later b σ) (hc : Widens names b c)
    (hbound : ∀ name ∈ bound, ∃ g, b.lookup name = some g)
    (hfree : ∀ name ∈ later, name ∈ bound ∨ name ∉ names) : Agrees later c σ := by
  intro name hname g hg
  rcases hc.within name g hg with hold | hnew
  · exact h name hname g hold
  · obtain ⟨k, hk⟩ := hbound name ((hfree name hname).resolve_right (not_not_intro hnew))
    have heq := hc.extends_ name k hk
    rw [hg] at heq
    obtain rfl := Option.some.inj heq
    exact h name hname g hk

/-! ## §3. Matching steady patterns -/

omit [EquivBEq α] in
/-- Bindings before a part of the pattern is matched: the names `bound` are bound, and
    the names `met` as they were put. -/
structure Prepared (s : Session α) (σ : String → Formula α) (bound met : List String)
    (b : Bindings α) : Prop where
  within : b.Within s
  binds : ∀ name ∈ bound, ∃ g, b.lookup name = some g
  agrees : Agrees met b σ

/-- However the pattern is prepared for, a match is found if it is steady, and leaves the
    names met later as they were put. -/
def Finds (s : Session α) (σ : String → Formula α) (p : Formula String) (f : Formula α) : Prop :=
  ∀ (b : Bindings α) (bound later : List String), Prepared s σ bound (p.atoms ++ later) b →
    p.steady bound later = true → ∃ c, extend? p f b = some c ∧ Agrees later c σ

omit [EquivBEq α] in
/-- One operand after the other. -/
theorem Finds.both (hs : s.Canonical) (hf : f ∈ s.interned) (hp : Finds s σ p f)
    (hq : Finds s σ q g) {met : List String} (hb : Prepared s σ bound met b)
    (hmet : ∀ name, name ∈ p.atoms ∨ name ∈ q.atoms ∨ name ∈ later → name ∈ met)
    (hsteady : (p.steady bound (q.atoms ++ later) && q.steady (p.atoms ++ bound) later) = true) :
    ∃ c, (extend? p f b).bind (extend? q g) = some c ∧ Agrees later c σ := by
  obtain ⟨hsteadyp, hsteadyq⟩ := Bool.and_eq_true_iff.1 hsteady
  have hbefore : Prepared s σ bound (p.atoms ++ (q.atoms ++ later)) b := by
    refine ⟨hb.within, hb.binds, fun name hname => hb.agrees name (hmet name ?_)⟩
    simpa only [List.mem_append] using hname
  obtain ⟨c, hc, hagrees⟩ := hp _ _ _ hbefore hsteadyp
  have hwidens := extend?_widens hc
  -- after the first operand its names are bound, and the rest still agrees
  have hbetween : Prepared s σ (p.atoms ++ bound) (q.atoms ++ later) c := by
    refine ⟨(extend?_matches hs.family hb.within hf hc).within, ?_, hagrees⟩
    refine List.forall_mem_append.2 ⟨hwidens.binds, fun name hname => ?_⟩
    obtain ⟨k, hk⟩ := hb.binds name hname
    exact ⟨k, hwidens.extends_ name k hk⟩
  rw [hc]
  exact hq _ _ _ hbetween hsteadyq

/-- Steady patterns are matched. -/
theorem exists_extend? (hs : s.Canonical) (h : p.Instance σ f) (hf : f ∈ s.interned) :
    Finds s σ p f := by
  induction h with
  | @prop i name f h =>
    intro b bound later hb _
    unfold extend?
    exact hb.agrees.assign? hs hb.within hf h
  | tt i j => exact fun b _ _ hb _ => ⟨b, rfl, hb.agrees⟩
  | ff i j => exact fun b _ _ hb _ => ⟨b, rfl, hb.agrees⟩
  | @negProp i k name j propId a h =>
    intro b bound later hb _
    unfold extend?
    exact hb.agrees.assign? hs hb.within (hs.prop_mem hf) h
  | @next i j p f _ ih =>
    intro b bound later hb hsteady
    unfold extend?
    exact ih (hs.next_mem hf) _ _ _ hb hsteady
  | @straight i j op p q f g _ _ ihp ihq =>
    intro b bound later hb hsteady
    have hl := hs.left_mem hf
    have hr := hs.right_mem hf
    have hmet (name : String) (h : name ∈ p.atoms ∨ name ∈ q.atoms ∨ name ∈ later) :
        name ∈ (Formula.binary i op p q).atoms ++ later := by
      simpa only [Formula.atoms, List.mem_append, or_assoc] using h
    have hleftFirst := (ihp hl).both hs hl (ihq hr) hb hmet
    have hrightFirst := (ihq hr).both hs hr (ihp hl) hb fun name h => hmet name (or_left_comm.1 h)
    unfold extend?
    rw [if_pos (beq_self_eq_true op)]
    unfold Formula.steady at hsteady
    cases op with
    | strongUntil | weakUntil => exact hleftFirst hsteady
    | release => exact hrightFirst hsteady
    | conj | disj =>
      obtain ⟨c, hc, hagrees⟩ := hleftFirst (Bool.and_eq_true_iff.1 hsteady).1
      exact ⟨c, by simp only [hc], hagrees⟩
  | @crossed i j op hop p q f g hinstq hinstp ihq ihp =>
    intro b bound later hb hsteady
    have hl := hs.left_mem hf
    have hr := hs.right_mem hf
    have hmet (name : String) (h : name ∈ q.atoms ∨ name ∈ p.atoms ∨ name ∈ later) :
        name ∈ (Formula.binary i op p q).atoms ++ later := by
      simpa only [Formula.atoms, List.mem_append, or_assoc] using or_left_comm.1 h
    have hcrossed := (ihq hl).both hs hl (ihp hr) hb hmet
    have hexchanged : Formula.isPlaceholderIn q p = false :=
      hinstp.not_isPlaceholderIn hs hr hinstq hl ((hs.shaped _ hf).1 hop)
    unfold Formula.steady at hsteady
    rw [hexchanged] at hsteady
    unfold extend?
    rw [if_pos (beq_self_eq_true op)]
    cases op with
    | strongUntil | release | weakUntil => cases hop
    | conj | disj =>
      obtain ⟨-, hsteady⟩ := Bool.and_eq_true_iff.1 hsteady
      rw [Bool.false_or] at hsteady
      obtain ⟨hrightFirst, hfree⟩ := Bool.and_eq_true_iff.1 hsteady
      cases hstraight : (extend? p f b).bind (extend? q g) with
      | none => exact hcrossed hrightFirst
      | some c =>
        -- the straight attempt succeeds as well, and is stayed with
        obtain ⟨d, hd, hc⟩ := Option.bind_eq_some_iff.1 hstraight
        have hwidens := (extend?_widens hd).trans (extend?_widens hc) fun _ => List.mem_append
        refine ⟨c, rfl, Agrees.of_widens ?_ hwidens hb.binds ?_⟩
        · exact fun name hname => hb.agrees name (List.mem_append_right _ hname)
        · intro name hname
          have hname := List.all_eq_true.1 hfree name hname
          simpa [List.contains_eq_mem] using hname

/-! ## §4. Matches of steady patterns -/

/-- Of a steady pattern just the instances are matched. -/
theorem extend?_isSome_iff (hs : s.Canonical) (hf : f ∈ s.interned)
    (hp : p.steady [] [] = true) : (extend? p f []).isSome ↔ ∃ σ, p.Instance σ f := by
  have hnone : Bindings.From ([] : Bindings α) s.interned := nofun
  constructor
  · intro hsome
    obtain ⟨c, hc⟩ := Option.isSome_iff_exists.1 hsome
    exact ⟨c.given, (extend?_matches hs.family hnone hf hc).matches_.instance_given⟩
  · rintro ⟨σ, hinstance⟩
    have hstart : Prepared s σ [] (p.atoms ++ []) [] := ⟨hnone, nofun, fun _ _ => nofun⟩
    obtain ⟨c, hc, -⟩ := exists_extend? hs hinstance hf _ _ _ hstart hp
    exact Option.isSome_iff_exists.2 ⟨c, hc⟩

/-- The built-in patterns are steady. -/
theorem standard_steady (stamp : Nat) :
    ∀ rule ∈ (RuleTable.standard stamp).1.rules, rule.pattern.steady [] [] = true := by
  rw [RuleTable.standard_rules]
  decide +kernel

/-- For a formula of a session, matching finds all instances of the built-in patterns, of
    every pattern in which no placeholder occurs twice, and of every steady pattern, and
    finds nothing else. -/
theorem match_found_iff (hs : s.Reached) (hf : f ∈ s.interned) :
    (∀ stamp, ∀ rule ∈ (RuleTable.standard stamp).1.rules,
        ((extend? rule.pattern f []).isSome ↔ ∃ σ, rule.pattern.Instance σ f))
      ∧ (∀ p : Formula String, p.atoms.Nodup →
          ((extend? p f []).isSome ↔ ∃ σ, p.Instance σ f))
      ∧ ∀ p : Formula String, p.steady [] [] = true →
          ((extend? p f []).isSome ↔ ∃ σ, p.Instance σ f) := by
  refine ⟨fun stamp rule hrule => ?_, fun p hp => ?_, fun p => extend?_isSome_iff hs.canonical hf⟩
  · exact extend?_isSome_iff hs.canonical hf (standard_steady stamp rule hrule)
  · exact extend?_isSome_iff hs.canonical hf (Formula.steady_of_nodup hp nofun)

/-- The steady pattern `p /\ ( p \/ q )` against `b /\ ( a \/ b )`. -/
theorem match_found_iff_absorption :
    let pattern : Formula String :=
      .binary 3 .conj (.prop 0 "p") (.binary 2 .disj (.prop 0 "p") (.prop 1 "q"))
    let e : Expression String :=
      .binary .conj (.binary .disj (.prop "a") (.prop "b")) (.prop "b")
    (e.build {}).2.Reached ∧ (e.build {}).1 ∈ (e.build {}).2.interned
      ∧ pattern.steady [] [] = true
      ∧ (∃ σ, pattern.Instance σ (e.build {}).1)
      ∧ (extend? pattern (e.build {}).1 []).isSome := by
  intro pattern e
  have hs : (e.build {}).2.Reached := Session.Reached.start.build e
  have hf : (e.build {}).1 ∈ (e.build {}).2.interned := Session.Reached.start.built_mem e
  have hsteady : pattern.steady [] [] = true := by decide
  -- the operands of the disjunction are met the other way around
  let σ : String → Formula String := fun name => if name = "p" then .prop 1 "b" else .prop 0 "a"
  have hinstance : pattern.Instance σ (e.build {}).1 :=
    .straight 3 3 .conj (.prop 0 (.refl _))
      (.crossed 2 2 rfl (.prop 1 (.refl _)) (.prop 0 (.refl _)))
  exact ⟨hs, hf, hsteady, ⟨σ, hinstance⟩,
    ((match_found_iff hs hf).2.2 pattern hsteady).2 ⟨σ, hinstance⟩⟩

/-- The rule that replaces `( p /\ q ) U p` by `p` has no fault, and `( a /\ b ) U b` is an
    instance of its pattern, with `b` for `p` and `a` for `q`.  But the conjunction is
    matched straight first, with `a` for `p`, and no match is found. -/
theorem match_missed_until :
    let p : Formula String := .prop 0 "p"
    let pattern : Formula String := .binary 3 .strongUntil (.binary 2 .conj p (.prop 1 "q")) p
    let e : Expression String :=
      .binary .strongUntil (.binary .conj (.prop "a") (.prop "b")) (.prop "b")
    (e.build {}).2.Reached ∧ (e.build {}).1 ∈ (e.build {}).2.interned
      ∧ (Rule.mk pattern p).fault?.isNone
      ∧ (∃ σ, pattern.Instance σ (e.build {}).1)
      ∧ extend? pattern (e.build {}).1 [] = none := by
  intro p pattern e
  have hs : (e.build {}).2.Reached := Session.Reached.start.build e
  have hf : (e.build {}).1 ∈ (e.build {}).2.interned := Session.Reached.start.built_mem e
  -- the search binds the first operand of the conjunction and does not return to it
  refine ⟨hs, hf, by decide, ?_, rfl⟩
  let σ : String → Formula String := fun name => if name = "p" then .prop 1 "b" else .prop 0 "a"
  have hcrossed : (Formula.binary 2 .conj p (.prop 1 "q")).Instance σ
      (.binary 2 .conj (.prop 0 "a") (.prop 1 "b")) :=
    .crossed 2 2 rfl (.prop 1 (.refl _)) (.prop 0 (.refl _))
  exact ⟨σ, .straight 3 3 .strongUntil hcrossed (.prop 0 (.refl _))⟩

end Bindings
end LinearTime
