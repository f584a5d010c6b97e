/-
  LinearTime.Proofs.KeptResults — what becomes of the results of simplification.

  A result bears the mark of its table, and the table gives it back at once as
  long as the mark stays.  But a formula has one mark only: any other table that
  gives the same formula puts its own mark in place.  Then the first table runs
  its passes again, and they need not stop where they stopped before.

      table 0     f ↦ g        mark 0 on g
      table 1     g ↦ g        mark 1 on g
      table 0     g ↦ ?        passes run again

  What they find again is the negation of `g`: while the session is not reset,
  a pass still leaves it as it is.  So `g` comes back exactly if its mark is
  still there or a pass leaves `g`, too.

  Main results:
    * `Run.producedBy` — a mark stays until another table gives the same formula.
    * `Produces.settledBy` — what passes settled on stays settled.
    * `exists_run_losing` — a run that takes the mark of a result away.
    * `result_kept_iff` — when a result is simplified to itself.
-/

import LinearTime.Proofs.Fixpoint
import LinearTime.Proofs.Marks

namespace LinearTime

variable {α : Type} [BEq α]

/-! ## §1. Marks that stay -/

namespace RuleTable

variable {table : RuleTable} {f g : Formula α} {s t : Session α}

/-- A call marks its result, unless it is a literal. -/
theorem Returns.marked (h : table.Returns f s g t) :
    g.isLiteral = true ∨ t.producedBy g table.stamp = true := by
  cases h with
  | atOnce hdone => exact Bool.or_eq_true_iff.1 hdone
  | settled => exact .inr (Session.producedBy_markProduced _ g table.stamp)

/-- Whatever bears the mark of the table is given back at once. -/
theorem simplify_atOnce (h : (f.isLiteral || s.producedBy f table.stamp) = true) :
    table.simplify f s = (f, s) := by
  rw [simplify_run, if_pos h]

end RuleTable

namespace Workspace

variable {u v w : Workspace α} {e : Event α} {events : List (Event α)} {table : RuleTable}
  {f g : Formula α} {stamp : Nat}

/-- A step keeps the mark of `g`, unless it is a call with another table that gives
    `g`. -/
theorem Step.producedBy (h : Step v e w) (hv : v.session.Numbered v.forgotten)
    (hg : g ∈ v.formulas) (hmark : v.session.producedBy g stamp = true)
    (hother : ∀ other k, e = .simplified other k g → other.stamp = stamp) :
    g ∈ w.formulas ∧ w.session.producedBy g stamp = true := by
  obtain ⟨hnumbered, hkeeps, -, hproduced⟩ := h.effect hv
  refine ⟨hkeeps g hg, ?_⟩
  unfold Session.producedBy at hmark ⊢
  rcases hproduced with hsame | ⟨other, f, k, rfl, -, hk, -, hnew⟩
  · rw [hsame]
    exact hmark
  · rw [hnew, List.lookup_cons]
    split
    next heq =>
      -- the call gave `g` itself
      obtain rfl := hnumbered.eq_of_id_eq hk (hkeeps g hg) (beq_iff_eq.1 heq).symm
      rw [hother other f rfl]
      exact beq_self_eq_true _
    next => exact hmark

/-- What is known of a result right after the call. -/
theorem Step.marked (h : Step v (.simplified table f g) w) (hv : v.session.Numbered v.forgotten) :
    table ∈ w.tables ∧ g ∈ w.formulas
      ∧ (g.isLiteral = true ∨ w.session.producedBy g table.stamp = true) := by
  cases h with
  | simplify ht hf hreturns =>
    exact ⟨ht, (hreturns.returned hv hf).result_mem, hreturns.marked⟩

/-- One run after the other. -/
theorem Run.trans {before after : List (Event α)} (h : Run u before v) (h' : Run v after w) :
    Run u (after ++ before) w := by
  induction h' with
  | start => exact h
  | step _ hstep ih => exact ih.step hstep

/-- A mark stays until another table gives the same formula. -/
theorem Run.producedBy {before after : List (Event α)} (h : Run v after w)
    (hv : Run {} before v) (hg : g ∈ v.formulas) (hmark : v.session.producedBy g stamp = true)
    (hother : ∀ other k, .simplified other k g ∈ after → other.stamp = stamp) :
    g ∈ w.formulas ∧ w.session.producedBy g stamp = true := by
  induction h with
  | start => exact ⟨hg, hmark⟩
  | step hrun hstep ih =>
    obtain ⟨hg, hmark⟩ := ih fun other k hk => hother other k (List.mem_cons_of_mem _ hk)
    refine hstep.producedBy (hv.trans hrun).sound.numbered hg hmark ?_
    rintro other k rfl
    exact hother other k List.mem_cons_self

/-! ## §2. Runs without a reset -/

/-- What was shared still is, in a session that is as canonical as it was. -/
structure Extends (u w : Workspace α) : Prop where
  canonical : w.session.Canonical
  forgotten : w.forgotten = []
  keeps : ∀ k ∈ u.session.interned, k ∈ w.session.interned

theorem Extends.start : Extends ({} : Workspace α) {} :=
  ⟨Session.canonical_of_interned_nil rfl, rfl, fun _ hk => hk⟩

theorem Extends.self (h : Extends u w) : Extends w w :=
  ⟨h.canonical, h.forgotten, fun _ hk => hk⟩

theorem Extends.formulas_eq (h : Extends u w) : w.formulas = w.session.interned := by
  unfold formulas
  rw [h.forgotten, List.append_nil]

variable [EquivBEq α]

/-- Without a reset, what is shared stays shared. -/
theorem Step.extends (h : Step v e w) (hv : Extends u v) (hreset : e ≠ .reset) :
    Extends u w := by
  have hformulas := hv.formulas_eq
  obtain ⟨hcanonical, hforgotten, hkeeps⟩ := hv
  cases h with
  | call c hc =>
    rw [hformulas] at hc
    have hcall := c.run_leads hcanonical hc
    exact ⟨hcall.sound, hforgotten, fun k hk => hcall.keeps k (hkeeps k hk)⟩
  | reset => exact absurd rfl hreset
  | arrange change => exact ⟨hcanonical, hforgotten, hkeeps⟩
  | @simplify other f k s ho hf hreturns =>
    rw [hformulas] at hf
    cases hreturns with
    | atOnce => exact ⟨hcanonical, hforgotten, hkeeps⟩
    | @settled _ passes _ t hrun =>
      -- of the last pass only the session is of interest here
      have hlast := Rule.settle?_last other.rules passes false hcanonical hf
      rw [show t = (Rule.settle? other.rules passes false f v.session).2 by rw [hrun]]
      exact ⟨hlast.sound.markProduced k other.stamp, hforgotten,
        fun k hk => hlast.keeps k (hkeeps k hk)⟩

theorem Run.extends (h : Run v events w) (hv : Extends u v) (hreset : .reset ∉ events) :
    Extends u w := by
  induction h with
  | start => exact hv
  | step _ hstep ih =>
    rw [List.mem_cons, not_or] at hreset
    exact hstep.extends (ih hreset.2) fun he => hreset.1 he.symm

/-- What the passes of some call settled on stays settled. -/
theorem Produces.settledBy (h : Produces events w table g) (hreset : .reset ∉ events) :
    ∃ n, Rule.SettledBy table.rules n g w.session := by
  obtain ⟨earlier, v, f, v', later, hearlier, -, hran, hcall, hlater, rfl⟩ := h
  rw [List.mem_append, List.mem_cons, not_or, not_or] at hreset
  obtain ⟨hreset', -, hreset⟩ := hreset
  have hv := hearlier.extends .start hreset
  have hkeeps := (hlater.extends (hcall.extends hv nofun).self hreset').keeps
  -- without a mark the call ran to its end, so its last pass changed nothing
  cases hcall with
  | simplify ht hf hreturns =>
    rw [hv.formulas_eq] at hf
    cases hreturns with
    | atOnce hdone =>
      rw [hran] at hdone
      cases hdone
    | @settled _ passes _ t hrun =>
      have hlast := (Rule.settle?_last table.rules passes false hv.canonical hf).result g
      rw [hrun] at hlast
      obtain ⟨n, hsettled⟩ := hlast rfl
      exact ⟨n, hsettled.later hkeeps⟩

/-- Whatever bears the mark of a table is what passes with its rules settled on. -/
theorem Sound.settledBy (h : Sound events w) (hreset : .reset ∉ events) (ht : table ∈ w.tables)
    (hg : g ∈ w.formulas) (hmark : w.session.producedBy g table.stamp = true) :
    ∃ n, Rule.SettledBy table.rules n g w.session := by
  obtain ⟨call, k, hproduces, hk, hid, -, -, hrules⟩ := h.marked _ _ (beq_iff_eq.1 hmark)
  obtain rfl := h.numbered.eq_of_id_eq hk hg hid
  rw [hrules table ht rfl]
  exact hproduces.settledBy hreset

/-! ## §3. Results that are lost -/

/-- Building an expression is a run of constructor calls. -/
theorem Run.build (h : Run u events v) (hv : v.session.Canonical) (hreset : .reset ∉ events)
    (e : Expression α) :
    ∃ events', .reset ∉ events' ∧ Run u events' { v with session := (e.build v.session).2 } := by
  let Ran (s : Session α) : Prop :=
    s.Canonical ∧ ∃ events', .reset ∉ events' ∧ Run u events' { v with session := s }
  have hcall {s : Session α} (c : Build.Call α) (hs : Ran s)
      (hc : ∀ f ∈ c.operands, f ∈ s.interned) : Ran (c.run s).2 := by
    obtain ⟨hs, events', hreset', hrun⟩ := hs
    refine ⟨(c.run_leads hs hc).sound, .built (c.run s).1 :: events', ?_, ?_⟩
    · rw [List.mem_cons, not_or]
      exact ⟨nofun, hreset'⟩
    · exact hrun.step (.call c fun f hf => List.mem_append_left v.forgotten (hc f hf))
  have hstart : Ran v.session := ⟨hv, events, hreset, h⟩
  exact (e.build_keeps (P := Ran) And.left hcall hstart).2

/-- A table is made without rules, and gives a shared formula back. -/
theorem run_empty_table (hv : v.session.Canonical) (hg : g ∈ v.session.interned)
    (hid : (({ stamp := v.nextStamp } : RuleTable).simplify g v.session).1.id = g.id) :
    ∃ s, ({ stamp := v.nextStamp } : RuleTable).simplify g v.session = (g, s)
      ∧ Run v [.simplified { stamp := v.nextStamp } g g, .arranged]
        { v with
          session := s
          tables := { stamp := v.nextStamp } :: v.tables
          nextStamp := v.nextStamp + 1 } := by
  let table : RuleTable := { stamp := v.nextStamp }
  have hlighten : ∀ rule ∈ table.rules, rule.Lightens := nofun
  have hsettles := (Rule.settle?_isSome hlighten _ false hv hg (Rule.mass_lt_passLimit g)).result
  have hreturns := table.simplify_returns g v.session hsettles
  have hleads := table.simplify_canonical hv hg
  -- numbers tell the formulas of a session apart
  have hsame : (table.simplify g v.session).1 = g :=
    hleads.sound.eq_of_id_eq hleads.result (hleads.keeps g hg) hid
  rw [hsame] at hreturns
  have hmade : Run v [.arranged]
      { v with tables := table :: v.tables, nextStamp := v.nextStamp + 1 } :=
    .step .start (.arrange .empty)
  exact ⟨_, Prod.ext hsame rfl,
    hmade.step (.simplify (.head _) (List.mem_append_left v.forgotten hg) hreturns)⟩

/-- An expression is built, and simplified with the built-in table. -/
theorem run_standardResult (e : Expression String) :
    ∃ before v, Run {} before v ∧ .reset ∉ before
      ∧ Step v
          (.simplified (RuleTable.standard 0).1 (e.build {}).1 (RuleTable.standardResult e {}).1)
          { session := (RuleTable.standardResult e {}).2
            tables := [(RuleTable.standard 0).1]
            nextStamp := 1 } := by
  have hmade : Run {} [.arranged]
      ({ tables := [(RuleTable.standard 0).1], nextStamp := 1 } : Workspace String) := by
    have h := Run.start.step (u := ({} : Workspace String)) (.arrange .standard)
    rwa [Change.standard_run] at h
  -- building the expression is a run of operator calls
  obtain ⟨before, hreset, hbuilt⟩ :=
    hmade.build (Session.canonical_of_interned_nil rfl) (by simp) e
  have hs : (e.build {}).2.Reached := Session.Reached.start.build e
  have hf : (e.build {}).1 ∈ (e.build {}).2.interned := Session.Reached.start.built_mem e
  have hreturns := (RuleTable.standard 0).1.simplify_returns (e.build {}).1 (e.build {}).2
    (RuleTable.settles 0 hs.canonical hf)
  rw [← RuleTable.standardResult_run] at hreturns
  exact ⟨before, _, hbuilt, hreset, .simplify (.head _) (List.mem_append_left [] hf) hreturns⟩

/-- A run in which the built-in table gives a result and a table without rules takes its
    mark away.  The result is lost if passes over it, run again, give something else. -/
theorem exists_run_losing (e : Expression String) :
    let table : RuleTable := (RuleTable.standard 0).1
    let other : RuleTable := { stamp := 1 }
    let g : Formula String := (RuleTable.standardResult e {}).1
    let s : Session String := (RuleTable.standardResult e {}).2
    (g.isLiteral || s.producedBy g table.stamp) = true → (other.simplify g s).1.id = g.id →
      (table.simplify g (other.simplify g s).2).1.id ≠ g.id →
      ∃ before v u w, Run {} before v ∧ Step v (.simplified table (e.build {}).1 g) u
        ∧ Run u [.simplified other g g, .arranged] w
        ∧ .reset ∉ [.simplified other g g, .arranged] ++ before
        ∧ table ∈ w.tables
        ∧ u.session = s
        ∧ table.simplify g u.session = (g, u.session)
        ∧ other.simplify g u.session = (g, w.session)
        ∧ (table.simplify g w.session).1 ≠ g := by
  intro table other g s hmarked hid hlost
  obtain ⟨before, v, hbefore, hreset, hcall⟩ := run_standardResult e
  obtain ⟨hcanonical, hg⟩ := RuleTable.standardResult_mem e
  -- The other table has no rules: it only leaves its own mark on the result.
  obtain ⟨t, hother, hafter⟩ := run_empty_table
    (v := { session := s, tables := [table], nextStamp := 1 }) hcanonical hg hid
  refine ⟨before, v, _, _, hbefore, hcall, hafter, ?_, .tail _ (.head _), rfl,
    RuleTable.simplify_atOnce hmarked, hother, ?_⟩
  · simpa using hreset
  · intro heq
    refine hlost (congrArg Formula.id ?_)
    rw [show (other.simplify g s).2 = t from congrArg Prod.snd hother]
    exact heq

/-! ## §4. Results that are simplified again -/

/-- Let a table simplify `f` to `g`, and let any calls, with any tables, and any changes
    of tables come after that.  As long as no other table gives `g`, the table gives
    `g` back at once.  Without a reset, it also gives `g` back if a pass leaves `g` as it
    is.  If its rules lighten, as the built-in ones do, it gives `g` back only if
    it finds its mark or a pass leaves `g` as it is. -/
theorem result_kept_iff {before after : List (Event α)} (hbefore : Run {} before v)
    (hcall : Step v (.simplified table f g) u) (hafter : Run u after w)
    (hreset : .reset ∉ after ++ before) :
    ((g.isLiteral = true ∨ ∀ other k, .simplified other k g ∈ after → other.stamp = table.stamp) →
        table.simplify g w.session = (g, w.session))
      ∧ ((Rule.pass table.rules g w.session).1 = g → (table.simplify g w.session).1 = g)
      ∧ ((∀ rule ∈ table.rules, rule.Lightens) →
          ((table.simplify g w.session).1 = g
            ↔ w.session.producedBy g table.stamp = true
              ∨ (Rule.pass table.rules g w.session).1 = g))
      ∧ ∀ stamp, ∀ rule ∈ (RuleTable.standard stamp).1.rules, rule.Lightens := by
  have hrun : Run {} (.simplified table f g :: before) u := hbefore.step hcall
  obtain ⟨ht, hg, hmarked⟩ := hcall.marked hbefore.sound.numbered
  rw [List.mem_append, not_or] at hreset
  have hreset' : .reset ∉ Event.simplified table f g :: before := by
    rw [List.mem_cons, not_or]
    exact ⟨nofun, hreset.2⟩
  have hu := hrun.extends .start hreset'
  have hw := hafter.extends hu.self hreset.1
  -- Two ways in which a call gives its formula back at once.
  have hliteral (h : g.isLiteral = true) : table.simplify g w.session = (g, w.session) :=
    RuleTable.simplify_atOnce (Bool.or_eq_true_iff.2 (.inl h))
  have hmark (h : w.session.producedBy g table.stamp = true) :
      table.simplify g w.session = (g, w.session) :=
    RuleTable.simplify_atOnce (Bool.or_eq_true_iff.2 (.inr h))
  have hfixed : (Rule.pass table.rules g w.session).1 = g → (table.simplify g w.session).1 = g := by
    intro hpass
    rcases hmarked with h | h
    · rw [hliteral h]
    · -- the mark was set by passes, maybe those of an earlier call
      obtain ⟨n, hsettled⟩ := hrun.sound.settledBy hreset' ht hg h
      exact RuleTable.simplify_of_fixed (hsettled.later hw.keeps) hw.canonical hpass
  refine ⟨?_, hfixed, ?_, standard_lightens⟩
  · rintro (h | hother)
    · exact hliteral h
    · rcases hmarked with h | h
      · exact hliteral h
      · exact hmark (hafter.producedBy hrun hg h hother).2
  · intro hlightens
    constructor
    · intro hsame
      rw [hu.formulas_eq] at hg
      cases hgone : w.session.producedBy g table.stamp with
      | true => exact .inl rfl
      | false =>
        exact .inr (RuleTable.pass_eq_of_simplify_eq hlightens hw.canonical (hw.keeps g hg) hgone
          hsame)
    · rintro (h | hpass)
      · rw [hmark h]
      · exact hfixed hpass

/-- A table without rules takes the mark of `X a` away, and `X a` comes back all the
    same. -/
theorem result_kept_iff_conj_self :
    let p : Formula String := .prop 0 "p"
    let both : Formula String := .binary 1 .conj (.prop 0 "a") (.prop 0 "a")
    let g : Formula String := .next 3 (.prop 0 "a")
    let table : RuleTable := { stamp := 1, rules := [⟨.binary 1 .conj p p, p⟩] }
    ∃ before v u after w, Run {} before v ∧ Step v (.simplified table (.next 2 both) g) u
      ∧ Run u after w ∧ .reset ∉ after ++ before
      ∧ w.session.producedBy g table.stamp = false
      ∧ (table.simplify g w.session).1 = g := by
  intro p both g table
  let s : Session String :=
    { interned :=
        [.next 5 (.negProp 4 0 "a"), .negProp 4 0 "a", g, .next 2 both, both, .prop 0 "a"]
      nextId := 6
      produced := [(3, 1)] }
  let u : Workspace String := { session := s, tables := [table], nextStamp := 2 }
  let w : Workspace String :=
    { session := s.markProduced g 2, tables := [{ stamp := 2 }, table], nextStamp := 3 }
  have hrun : Run {} _ u := run_conj_self
  cases hrun with
  | @step before v _ _ hbefore hcall =>
    -- Without rules a pass settles where it starts.
    have hpasses : Rule.settle? [] 2 false g s = (some g, s) := by cbv
    have hafter : Run u [.simplified { stamp := 2 } g g, .arranged] w :=
      (Run.start.step (.arrange .empty)).step
        (.simplify (.head _) (.tail _ (.tail _ (.head _))) (.settled rfl hpasses))
    have hpass : (Rule.pass table.rules g w.session).1 = g := by cbv
    exact ⟨_, _, u, _, w, hbefore, hcall, hafter, by simp, rfl,
      (result_kept_iff hbefore hcall hafter (by simp)).2.1 hpass⟩

/-- From `X (a U (a /\ b)) \/ X (a U c)` the built-in table makes the next of a disjunction,
    which it gives back.  A new table without rules gives it back, too, but takes the mark
    away.  After this run, without a reset, the built-in table joins the untils in it. -/
theorem result_not_kept_untils :
    let e : Expression String := .binary .disj
      (.next (.binary .strongUntil (.prop "a") (.binary .conj (.prop "a") (.prop "b"))))
      (.next (.binary .strongUntil (.prop "a") (.prop "c")))
    let table : RuleTable := (RuleTable.standard 0).1
    let other : RuleTable := { stamp := 1 }
    let g : Formula String := (RuleTable.standardResult e {}).1
    ∃ before v u w, Run {} before v ∧ Step v (.simplified table (e.build {}).1 g) u
      ∧ Run u [.simplified other g g, .arranged] w
      ∧ .reset ∉ [.simplified other g g, .arranged] ++ before
      ∧ table ∈ w.tables
      ∧ u.session = (RuleTable.standardResult e {}).2
      ∧ table.simplify g u.session = (g, u.session)
      ∧ other.simplify g u.session = (g, w.session)
      ∧ (table.simplify g w.session).1 ≠ g := by
  intro e table other g
  -- one evaluation: still marked, alike afterwards, and lost with the mark
  have hevaluated :
      (g.isLiteral || (RuleTable.standardResult e {}).2.producedBy g table.stamp) = true
      ∧ (other.simplify g (RuleTable.standardResult e {}).2).1.id = g.id
      ∧ (table.simplify g (other.simplify g (RuleTable.standardResult e {}).2).2).1.id ≠ g.id := by
    decide +kernel
  obtain ⟨hmarked, hid, hlost⟩ := hevaluated
  exact exists_run_losing e hmarked hid hlost

end Workspace
end LinearTime
