/-
  LinearTime.Proofs.Fixpoint — what simplification settles on, simplified again.

  The passes alternate between a formula and its negation, and stop when a pass
  over the negation changes nothing.  So of what they settle on, the negation is
  left as it is by a pass; of the formula itself this is not asked:

      n  —pass→  n  —not→  g        the last pass, then the result
      g  —pass→  ?                  may still change

  For what is an until in `g` can be a weak until in `n`, where the dual of a rule
  about untils asks for a release and finds none.  Simplifying `g` again, with the
  same rules but without its mark, gives `g` back exactly if a pass leaves it as it
  is, for then the next two passes are the last ones.

  Main results:
    * `settle?_last` — what is known of the last pass.
    * `settle?_of_fixed` — a formula that passes leave settles on itself.
    * `resimplify_eq_self_iff` — when simplifying again changes nothing.
-/

import LinearTime.Proofs.DoubleNegation
import LinearTime.Proofs.Repetition
import LinearTime.Proofs.Settling

namespace LinearTime

variable {α : Type} [BEq α]

/-! ## §1. The last pass -/

/-- `g` is the negation of `n`, which a pass leaves as it is, from now on. -/
structure Rule.SettledBy (rules : List Rule) (n g : Formula α) (t : Session α) : Prop where
  negated_mem : n ∈ t.interned
  result_mem : g ∈ t.interned
  negates : Formula.Negates n g
  fixed : Build.Again (pass rules n) n t
  restored : Build.Again (Build.not n) g t

/-- One pass, the negation of what it leaves, and what comes after them. -/
theorem Rule.settle?_succ {rules : List Rule} {f g n : Formula α} {s t u : Session α}
    (hpass : pass rules f s = (g, t)) (hnot : Build.not g t = (n, u)) (passes : Nat)
    (negated : Bool) :
    settle? rules (passes + 1) negated f s
      = if g.same f && negated then (some n, u) else settle? rules passes (!negated) n u := by
  have hrun : settle? rules (passes + 1) negated f
      = pass rules f >>= fun g => Build.not g >>= fun n =>
          if g.same f && negated then pure (some n) else settle? rules passes (!negated) n := rfl
  rw [hrun, Build.bind_run hpass, Build.bind_run hnot]
  split
  · rfl
  · rfl

variable [EquivBEq α] {s t u : Session α} {rules : List Rule} {f g n : Formula α}

/-- The passes end with one over the negation that changes nothing. -/
theorem Rule.settle?_last (rules : List Rule) (passes : Nat) (negated : Bool)
    (h : s.Canonical) (hf : f ∈ s.interned) :
    Build.Leads Session.Canonical (settle? rules passes negated f) s fun r t =>
      ∀ g, r = some g → ∃ n, SettledBy rules n g t := by
  induction passes generalizing negated s f with
  | zero => exact .pure h nofun
  | succ passes ih =>
    refine ((pass_leads (kept_true rules) h hf).replaying (pass_replays rules f s)).bind ?_
    rintro g t ht hkeep ⟨⟨hg, -⟩, hagain⟩
    refine ((Build.not_leads ht hg).replaying (Build.not_replays g t)).bind ?_
    rintro k u hu hkeep' ⟨⟨hk, hneg⟩, hback⟩
    split
    next hdone =>
      -- the pass gave back what it was given
      have hsame : g.same f = true := (Bool.and_eq_true_iff.1 hdone).1
      have hgf : g = f := ht.eq_of_id_eq hg (hkeep f hf) (Formula.same_iff.1 hsame)
      subst hgf
      refine .pure hu ?_
      intro r hr
      obtain rfl := Option.some.inj hr
      exact ⟨g, hkeep' g hg, hk, hneg, hagain.later hkeep', hback⟩
    next => exact ih (!negated) hu hk

namespace Rule.SettledBy

omit [EquivBEq α] in
/-- What passes settled on stays settled while it is shared. -/
theorem later (h : SettledBy rules n g t) (hkeep : ∀ k ∈ t.interned, k ∈ u.interned) :
    SettledBy rules n g u :=
  ⟨hkeep n h.negated_mem, hkeep g h.result_mem, h.negates, h.fixed.later hkeep,
    h.restored.later hkeep⟩

/-- The negation of the result is what the last pass left. -/
theorem not_leads (h : SettledBy rules n g t) (ht : t.Canonical) :
    Build.Leads Session.Canonical (Build.not g) t fun k _ => k = n :=
  Build.not_back_leads ht h.negated_mem h.result_mem h.negates

end Rule.SettledBy

/-! ## §2. Passes over what passes settled on -/

/-- If a pass leaves the result as it is, two more passes settle on it again. -/
theorem Rule.settle?_of_fixed (h : SettledBy rules n g t) (ht : t.Canonical)
    (hfixed : (pass rules g t).1 = g) (passes : Nat) :
    (settle? rules (passes + 2) false g t).1 = some g := by
  have hpass := pass_leads (kept_true rules) ht h.result_mem
  have hlater := h.later hpass.keeps
  have hnot := hlater.not_leads hpass.sound
  have hlast := hlater.later hnot.keeps
  have hself : n.same n = true := beq_self_eq_true n.id
  -- the pass over `g`, then the one over `n`
  rw [settle?_succ (g := g) (Prod.ext hfixed rfl) (Prod.ext hnot.result rfl)]
  rw [Bool.and_false, if_neg Bool.false_ne_true]
  rw [settle?_succ (hlast.fixed _ hnot.sound fun _ hk => hk)
    (hlast.restored _ hnot.sound fun _ hk => hk)]
  rw [hself]
  rfl

/-- Passes with rules that lighten give nothing heavier. -/
theorem Rule.settle?_mass_le (hrules : ∀ rule ∈ rules, rule.Lightens) (passes : Nat)
    (negated : Bool) (h : s.Canonical) (hf : f ∈ s.interned) :
    Build.Leads Session.Canonical (settle? rules passes negated f) s fun r _ =>
      ∀ g, r = some g → g.mass ≤ f.mass := by
  have hmass {f g : Formula α} (hfg : f.StaysOrLightens g) : g.mass ≤ f.mass := by
    cases hfg with
    | inl heq => rw [heq]
    | inr hlt => exact hlt.le
  have hpasses := settle?_leads (kept_lightens hrules) (N := fun _ f g => g.mass ≤ f.mass)
    (fun f g k hfg hneg => by
      have hle := hmass hfg
      have hk : k.mass = g.mass := hneg.weight _
      omega)
    (fun _ f g k m hfg hneg hmk => by
      have hle := hmass hfg
      have hk : k.mass = g.mass := hneg.weight _
      omega)
    passes negated h hf
  refine hpasses.mono ?_
  intro r t _ hr g hg
  exact (hr g hg).2

/-- If the first pass changes the formula, and rules lighten, the passes settle on
    something lighter. -/
theorem Rule.settle?_mass_lt (hrules : ∀ rule ∈ rules, rule.Lightens) (passes : Nat)
    (h : s.Canonical) (hf : f ∈ s.interned) (hchanged : (pass rules f s).1 ≠ f) :
    ∀ g, (settle? rules (passes + 1) false f s).1 = some g → g.mass < f.mass := by
  have hpass := pass_leads (kept_lightens hrules) h hf
  have hlt : (pass rules f s).1.mass < f.mass := hpass.result.2.resolve_left hchanged
  have hnot := Build.not_leads hpass.sound hpass.result.1
  have hrest := settle?_mass_le hrules passes true hnot.sound hnot.result.1
  intro g hg
  rw [settle?_succ (Prod.ext rfl rfl) (Prod.ext rfl rfl)] at hg
  rw [Bool.and_false, if_neg Bool.false_ne_true] at hg
  have hle := hrest.result g hg
  have hneg := hnot.result.2.weight fun _ => 1
  unfold Formula.mass at hle hlt ⊢
  omega

/-! ## §3. Simplifying again -/

namespace RuleTable

omit [EquivBEq α] in
/-- What simplification gives. -/
theorem simplify_fst (table : RuleTable) (f : Formula α) (s : Session α) :
    (table.simplify f s).1
      = if f.isLiteral || s.producedBy f table.stamp then f
        else (Rule.settle? table.rules (Rule.passLimit f) false f s).1.getD f := by
  rw [simplify_run]
  split
  · rfl
  · split
    next g t hrun => rw [hrun]; rfl
    next t hrun => rw [hrun]; rfl

omit [EquivBEq α] in
/-- A run of the passes that settles is the simplification. -/
theorem simplify_of_settled {table : RuleTable} (hliteral : f.isLiteral = false)
    (hfresh : s.producedBy f table.stamp = false)
    (hrun : Rule.settle? table.rules (Rule.passLimit f) false f s = (some g, t)) :
    table.simplify f s = (g, t.markProduced g table.stamp) := by
  rw [simplify_run, hliteral, hfresh, hrun]
  rfl

omit [BEq α] [EquivBEq α] in
/-- There are always passes enough to settle on a formula that they leave. -/
theorem two_le_passLimit (f : Formula α) : 2 ≤ Rule.passLimit f := by
  have hlimit := Rule.mass_lt_passLimit f
  have hpos := f.mass_pos
  omega

/-- A formula that passes settled on, and that a pass leaves as it is, is
    simplified to itself. -/
theorem simplify_of_fixed {table : RuleTable} (h : Rule.SettledBy table.rules n g t)
    (ht : t.Canonical) (hfixed : (Rule.pass table.rules g t).1 = g) :
    (table.simplify g t).1 = g := by
  rw [simplify_fst]
  split
  · rfl
  · obtain ⟨passes, hpasses⟩ := Nat.exists_eq_add_of_le' (two_le_passLimit g)
    rw [hpasses, Rule.settle?_of_fixed h ht hfixed]
    rfl

/-- With rules that lighten, a formula that is simplified to itself, and does not
    bear the mark of the table, is left as it is by a pass. -/
theorem pass_eq_of_simplify_eq {table : RuleTable}
    (hrules : ∀ rule ∈ table.rules, rule.Lightens) (h : s.Canonical) (hf : f ∈ s.interned)
    (hmark : s.producedBy f table.stamp = false) (hsame : (table.simplify f s).1 = f) :
    (Rule.pass table.rules f s).1 = f := by
  by_contra hchanged
  have hlighter := (Rule.pass_leads (Rule.kept_lightens hrules) h hf).result.2.resolve_left hchanged
  have hpos := (Rule.pass table.rules f s).1.mass_pos
  cases hliteral : f.isLiteral with
  | true =>
    -- nothing is lighter than a literal, so no pass changes one
    have hone : f.mass = 1 := by
      cases f with
      | tt | ff | prop | negProp => rfl
      | next | binary => cases hliteral
    omega
  | false =>
    have hlimit := Rule.mass_lt_passLimit f
    have hsome := (Rule.settle?_isSome hrules (Rule.passLimit f) false h hf hlimit).result
    obtain ⟨g, hg⟩ := Option.isSome_iff_exists.1 hsome
    obtain ⟨passes, hpasses⟩ := Nat.exists_eq_add_of_le' (two_le_passLimit f)
    rw [simplify_fst, hliteral, hmark, Bool.or_false, if_neg Bool.false_ne_true, hg] at hsame
    rw [hpasses] at hg
    have hlt := Rule.settle?_mass_lt hrules (passes + 1) h hf hchanged g hg
    have hgf : g = f := hsame
    rw [hgf] at hlt
    omega

/-- What the built-in rules make of an expression. -/
def standardResult (e : Expression String) : Build String (Formula String) := do
  (standard 0).1.simplify (← e.build)

theorem standardResult_run (e : Expression String) :
    standardResult e {} = (standard 0).1.simplify (e.build {}).1 (e.build {}).2 := by
  unfold standardResult
  exact Build.bind_run (Prod.eta _).symm

/-- What the built-in rules make of an expression is shared. -/
theorem standardResult_mem (e : Expression String) :
    (standardResult e {}).2.Canonical
      ∧ (standardResult e {}).1 ∈ (standardResult e {}).2.interned := by
  have hs : (e.build {}).2.Reached := Session.Reached.start.build e
  have hleads := (standard 0).1.simplify_canonical hs.canonical (Session.Reached.start.built_mem e)
  rw [standardResult_run]
  exact ⟨hleads.sound, hleads.result⟩

/-- Let passes settle on `g`, and let a second table have the same rules, and not
    have produced `g`.  In every later session that comes about, a pass leaves the
    negation of `g` as it is; if it leaves `g` as it is, too, the second table
    simplifies `g` to itself.  If rules lighten, as the built-in ones do, it does so
    only then. -/
theorem resimplify_eq_self_iff {table second : RuleTable} (hrules : second.rules = table.rules)
    (h : s.Reached) (hf : f ∈ s.interned) {passes : Nat}
    (hrun : Rule.settle? table.rules passes false f s = (some g, t)) (hu : u.Reached)
    (hkeep : ∀ k ∈ t.interned, k ∈ u.interned)
    (hmark : u.producedBy g second.stamp = false) :
    ((do Rule.pass table.rules (← Build.not g)) u).1 = (Build.not g u).1
      ∧ ((Rule.pass table.rules g u).1 = g → (second.simplify g u).1 = g)
      ∧ ((∀ rule ∈ table.rules, rule.Lightens) →
          ((second.simplify g u).1 = g ↔ (Rule.pass table.rules g u).1 = g))
      ∧ ∀ stamp, ∀ rule ∈ (standard stamp).1.rules, rule.Lightens := by
  -- `n` is what the last pass was over
  have hlast := (Rule.settle?_last table.rules passes false h.canonical hf).result g
  rw [hrun] at hlast
  obtain ⟨n, hsettled⟩ := hlast rfl
  have hlater := hsettled.later hkeep
  have hfixed : (Rule.pass table.rules g u).1 = g → (second.simplify g u).1 = g := by
    intro hpass
    rw [← hrules] at hlater hpass
    exact simplify_of_fixed hlater hu.canonical hpass
  refine ⟨?_, hfixed, ?_, standard_lightens⟩
  · have hnot := hlater.not_leads hu.canonical
    have hpass := (hlater.later hnot.keeps).fixed _ hnot.sound fun _ hk => hk
    rw [Build.bind_run (Prod.ext hnot.result rfl), hpass, hnot.result]
  · intro hlightens
    constructor
    · intro hsame
      rw [← hrules] at hlightens ⊢
      exact pass_eq_of_simplify_eq hlightens hu.canonical hlater.result_mem hmark hsame
    · exact hfixed

/-- A conjunction of `a` with itself below a next is simplified to the next of `a`,
    and that to itself. -/
theorem resimplify_eq_self_iff_next :
    let e : Expression String := .next (.binary .conj (.prop "a") (.prop "a"))
    (({ (standard 0).1 with stamp := 1 } : RuleTable).simplify
        (standardResult e {}).1 (standardResult e {}).2).1
      = (standardResult e {}).1 := by
  intro e
  have hliteral : (e.build {}).1.isLiteral = false := by decide +kernel
  have hproduced : (e.build {}).2.produced = [] := by decide +kernel
  have hevaluated : (standardResult e {}).2.producedBy (standardResult e {}).1 1 = false
      ∧ (Rule.pass (standard 0).1.rules (standardResult e {}).1 (standardResult e {}).2).1.id
        = (standardResult e {}).1.id := by
    decide +kernel
  have hs : (e.build {}).2.Reached := Session.Reached.start.build e
  have hf : (e.build {}).1 ∈ (e.build {}).2.interned := Session.Reached.start.built_mem e
  obtain ⟨g, hg⟩ := Option.isSome_iff_exists.1 (settles 0 hs.canonical hf)
  rw [standardResult_run] at hevaluated ⊢
  -- nothing is evaluated from here on
  generalize (standard 0).1 = table at *
  generalize (e.build {}).1 = f at *
  generalize (e.build {}).2 = s at *
  have hfresh : s.producedBy f table.stamp = false := by
    unfold Session.producedBy
    rw [hproduced]
    rfl
  have hu : (table.simplify f s).2.Reached := .simplify table hs hf
  have hmem := (table.simplify_canonical hs.canonical hf).result
  rw [simplify_of_settled hliteral hfresh (Prod.ext hg rfl)] at hevaluated hu hmem ⊢
  obtain ⟨hmark, hid⟩ := hevaluated
  have hpass := Rule.pass_leads (Rule.kept_true table.rules) hu.canonical hmem
  have hfixed := hpass.sound.eq_of_id_eq hpass.result.1 (hpass.keeps g hmem) hid
  have hrules : ({ table with stamp := 1 } : RuleTable).rules = table.rules := rfl
  exact (resimplify_eq_self_iff hrules hs hf (Prod.ext hg rfl) hu (fun _ hk => hk) hmark).2.1
    hfixed

/-- From `X (a U (a /\ b)) \/ X (a U c)` the next is moved outwards, and the passes
    settle: in the negation, the first until is a weak until and is joined with
    nothing.  A second table with the same rules joins the untils of the result. -/
theorem resimplify_ne_self_untils :
    let e : Expression String := .binary .disj
      (.next (.binary .strongUntil (.prop "a") (.binary .conj (.prop "a") (.prop "b"))))
      (.next (.binary .strongUntil (.prop "a") (.prop "c")))
    (e.build {}).1.isLiteral = false
      ∧ (({ (standard 0).1 with stamp := 1 } : RuleTable).simplify
          (standardResult e {}).1 (standardResult e {}).2).1
        ≠ (standardResult e {}).1 := by
  intro e
  constructor
  · decide +kernel
  · intro heq
    -- numbers are compared instead of whole formulas
    have hid : (({ (standard 0).1 with stamp := 1 } : RuleTable).simplify
        (standardResult e {}).1 (standardResult e {}).2).1.id ≠ (standardResult e {}).1.id := by
      decide +kernel
    exact hid (congrArg Formula.id heq)

end RuleTable
end LinearTime
