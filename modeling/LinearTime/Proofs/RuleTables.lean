/-
  LinearTime.Proofs.RuleTables — every rule of a table can be applied.

  A rule is *well formed* if its pattern is more than a placeholder and all names
  of its replacement are names of the pattern.  Whoever adds a rule to a table has
  its placeholders compared; these are read off the distinct subformulas, and
  among formulas of sessions they are just the names in the trees.  So

      accepted    ⟺   well formed
      refused      ⟹   tables and stamps stay what they were

  and, after any changes, all rules of all tables are well formed.  A match of the
  pattern binds what the replacement needs then, whatever alternatives were tried
  and given up: the replacement is filled.

  Main results:
    * `Rule.fault?_eq_none_iff` — what the check of a rule decides.
    * `Workspace.Change.run_rules` — where the rules of the tables come from.
    * `rule_tables_well_formed` — the rules after any changes, what refusals do,
      and that matched rules are applied.
-/

import LinearTime.Proofs.Marks
import LinearTime.Proofs.Placeholders

namespace LinearTime

variable {α : Type}

/-! ## §1. Rules -/

/-- The formula is one of a session: it is shared there, or was and has been forgotten
    by a reset. -/
def Formula.InSession [BEq α] (f : Formula α) : Prop :=
  ∃ events w, Workspace.Run {} events w ∧ f ∈ w.formulas

theorem Formula.InSession.family [BEq α] {f : Formula α} (h : f.InSession) :
    ∃ U, Family U ∧ f ∈ U := by
  obtain ⟨events, w, hrun, hf⟩ := h
  exact ⟨w.formulas, hrun.sound.numbered.family, hf⟩

namespace Rule

/-- Both sides are formulas of sessions. -/
def InSession (rule : Rule) : Prop := rule.pattern.InSession ∧ rule.replacement.InSession

/-- The pattern is no placeholder, and has all names of the replacement. -/
structure WellFormed (rule : Rule) : Prop where
  pattern_atom? : rule.pattern.atom? = none
  atoms_subset : ∀ name ∈ rule.replacement.atoms, name ∈ rule.pattern.atoms

instance (rule : Rule) : Decidable rule.WellFormed :=
  decidable_of_iff (rule.pattern.atom? = none
      ∧ ∀ name ∈ rule.replacement.atoms, name ∈ rule.pattern.atoms)
    ⟨fun h => ⟨h.1, h.2⟩, fun h => ⟨h.1, h.2⟩⟩

/-- The check compares the names in the trees of the two sides, although it looks at
    distinct subformulas only. -/
theorem fault?_eq_none_iff {rule : Rule} (h : rule.InSession) :
    rule.fault? = none ↔ rule.WellFormed := by
  obtain ⟨U, hU, hpattern⟩ := h.1.family
  obtain ⟨V, hV, hreplacement⟩ := h.2.family
  -- The search for an unbound name goes through all names of the replacement.
  have hnames : ((placeholders rule.replacement).find?
        (fun name => !(placeholders rule.pattern).contains name)) = none
      ↔ ∀ name ∈ rule.replacement.atoms, name ∈ rule.pattern.atoms := by
    simp only [List.find?_eq_none, mem_placeholders_iff hV hreplacement, Bool.not_eq_true',
      Bool.not_eq_false, List.contains_iff_mem, mem_placeholders_iff hU hpattern]
  unfold fault?
  split
  next i name heq =>
    refine ⟨nofun, fun hwell => ?_⟩
    have hatom := hwell.pattern_atom?
    rw [heq] at hatom
    cases hatom
  next hne =>
    rw [Option.map_eq_none_iff, hnames]
    refine ⟨fun hsubset => ⟨?_, hsubset⟩, WellFormed.atoms_subset⟩
    cases hpat : rule.pattern with
    | prop i name => exact absurd hpat (hne i name)
    | tt | ff | negProp | next | binary => rfl

/-- Where a well-formed rule matches, its replacement is filled and takes the place of
    the formula. -/
theorem WellFormed.apply_run [BEq α] {rule : Rule} (h : rule.WellFormed) {f : Formula α}
    {b : Bindings α} (hb : Bindings.extend? rule.pattern f [] = some b) (s : Session α) :
    ∃ g t, (b.fill rule.replacement).run s = (some g, t) ∧ rule.apply f s = (g, t) := by
  have hwidens := Bindings.extend?_widens hb
  have hbound : ∀ name ∈ rule.replacement.atoms, ∃ g, b.lookup name = some g :=
    fun name hname => hwidens.binds name (h.atoms_subset name hname)
  obtain ⟨g, t, hfill⟩ := Bindings.exists_fill hbound s
  refine ⟨g, t, hfill, ?_⟩
  unfold apply
  simp only [hb]
  rw [Build.bind_run hfill]
  rfl

end Rule

/-! ## §2. What changes do to the rules -/

namespace RuleTable

/-- A table that comes out of an addition has the rule, at the end, and the rule has no
    fault. -/
theorem add_rules {table added : RuleTable} {rule : Rule} {n : Nat}
    (h : ((table.add rule).run n).1 = .ok added) :
    added.rules = table.rules ++ [rule] ∧ rule.fault? = none := by
  rw [add_run] at h
  cases hfault : rule.fault? with
  | some fault =>
    rw [hfault] at h
    cases h
  | none =>
    rw [hfault] at h
    cases h
    exact ⟨rfl, rfl⟩

/-- So it is for one rule after the other. -/
theorem addAll_rules (rules : List Rule) {table added : RuleTable} {n : Nat}
    (h : ((addAll table rules).run n).1 = .ok added) :
    added.rules = table.rules ++ rules ∧ ∀ rule ∈ rules, rule.fault? = none := by
  induction rules generalizing table n with
  | nil =>
    cases h
    exact ⟨(List.append_nil _).symm, nofun⟩
  | cons rule rules ih =>
    rw [addAll_cons_run, add_run] at h
    cases hfault : rule.fault? with
    | some fault =>
      rw [hfault] at h
      cases h
    | none =>
      rw [hfault] at h
      obtain ⟨hrules, hnone⟩ := ih h
      refine ⟨?_, List.forall_mem_cons.2 ⟨hfault, hnone⟩⟩
      rw [hrules]
      exact List.append_assoc _ [rule] rules

end RuleTable

namespace Workspace

/-- The rules that are handed in. -/
def Change.rules : Change → List Rule
  | empty | standard | drop _ => []
  | ofRules _ rules => rules
  | add _ rule | extend _ rule => [rule]

/-- All rules of all tables are such. -/
def AllRules (P : Rule → Prop) (tables : List RuleTable) : Prop :=
  ∀ table ∈ tables, ∀ rule ∈ table.rules, P rule

variable {P : Rule → Prop} {tables : List RuleTable} {n : Nat}

theorem AllRules.cons {table : RuleTable} (h : AllRules P tables) (ht : ∀ rule ∈ table.rules, P rule) :
    AllRules P (table :: tables) :=
  List.forall_mem_cons.2 ⟨ht, h⟩

theorem AllRules.eraseIdx (h : AllRules P tables) (place : Nat) :
    AllRules P (tables.eraseIdx place) :=
  fun table htable => h table (List.mem_of_mem_eraseIdx htable)

theorem AllRules.set {table : RuleTable} (h : AllRules P tables)
    (ht : ∀ rule ∈ table.rules, P rule) (place : Nat) : AllRules P (tables.set place table) := by
  intro other hother
  rcases List.mem_or_eq_of_mem_set hother with hold | rfl
  · exact h other hold
  · exact ht

/-- A rule of a table with one more is one of the table or the new one. -/
theorem AllRules.added {table added : RuleTable} {rule : Rule} (h : AllRules P tables)
    (ht : table ∈ tables) (hrule : rule.fault? = none → P rule)
    (hadded : ((table.add rule).run n).1 = .ok added) : ∀ rule ∈ added.rules, P rule := by
  obtain ⟨hrules, hnone⟩ := RuleTable.add_rules hadded
  rw [hrules]
  intro other hother
  rcases List.mem_append.1 hother with hold | hnew
  · exact h table ht other hold
  · rw [List.mem_singleton.1 hnew]
    exact hrule hnone

theorem Change.make_fst (job : Stamping RuleTable) :
    ((do return (← job) :: tables : Stamping (List RuleTable)) n).1 = (job n).1 :: tables :=
  rfl

/-- What holds of the tables with what was made, and of those that a refusal leaves. -/
theorem Change.outcome_fst {Q : List RuleTable → Prop} {job : ExceptT RuleFault Stamping RuleTable}
    {made : RuleTable → List RuleTable} {refused : List RuleTable}
    (hmade : ∀ table, (job.run n).1 = .ok table → Q (made table)) (hrefused : Q refused) :
    Q (outcome job made refused n).1 := by
  rw [outcome_run]
  revert hmade
  generalize job.run n = result
  intro hmade
  obtain ⟨_ | table, m⟩ := result
  · exact hrefused
  · exact hmade table rfl

/-- Where the rules of the tables come from: they were there, are built in, or were
    handed in and have no fault. -/
theorem Change.run_rules (change : Change) (h : AllRules P tables)
    (hstandard : ∀ stamp, ∀ rule ∈ (RuleTable.standard stamp).1.rules, P rule)
    (hrules : ∀ rule ∈ change.rules, rule.fault? = none → P rule) :
    AllRules P (change.run tables n).1 := by
  cases change with
  | empty => exact h.cons nofun
  | standard =>
    rw [Change.run, make_fst]
    exact h.cons (hstandard n)
  | ofRules session rules =>
    refine outcome_fst (fun table hmade => h.cons ?_) h
    obtain ⟨hall, hnone⟩ := RuleTable.addAll_rules rules hmade
    rw [hall]
    exact fun rule hrule => hrules rule hrule (hnone rule hrule)
  | add place rule =>
    have hrule := hrules rule (.head _)
    -- Without a table at the place nothing changes.
    cases hplace : tables[place]? with
    | none =>
      simp only [Change.run, hplace]
      exact h
    | some table =>
      simp only [Change.run, hplace]
      have ht := List.mem_of_getElem? hplace
      exact outcome_fst (fun added hadded => h.set (h.added ht hrule hadded) place) h
  | extend place rule =>
    have hrule := hrules rule (.head _)
    cases hplace : tables[place]? with
    | none =>
      simp only [Change.run, hplace]
      exact h
    | some table =>
      simp only [Change.run, hplace]
      have ht := List.mem_of_getElem? hplace
      exact outcome_fst (fun added hadded => (h.eraseIdx place).cons (h.added ht hrule hadded))
        (h.eraseIdx place)
  | drop place => exact h.eraseIdx place

/-- A rule that is refused changes neither tables nor stamps. -/
theorem Change.add_refused {rule : Rule} {fault : RuleFault} (h : rule.fault? = some fault)
    (place : Nat) : (Change.add place rule).run tables n = (tables, n) := by
  cases hplace : tables[place]? with
  | none =>
    simp only [Change.run, hplace]
    rfl
  | some table =>
    simp only [Change.run, hplace]
    rw [outcome_run, RuleTable.add_run, h]

/-! ## §3. Runs -/

/-- The tables, and the stamp to be drawn next, after any changes with rules that are
    built of formulas of sessions. -/
inductive Arranged : List RuleTable → Nat → Prop
  | start : Arranged [] 0
  | change {tables : List RuleTable} {n : Nat} (h : Arranged tables n) (c : Change)
    (hrules : ∀ rule ∈ c.rules, rule.InSession) :
    Arranged (c.run tables n).1 (c.run tables n).2

theorem standard_wellFormed (stamp : Nat) :
    ∀ rule ∈ (RuleTable.standard stamp).1.rules, rule.WellFormed := by
  rw [RuleTable.standard_rules]
  decide +kernel

/-- After any changes all rules of all tables are well formed. -/
theorem Arranged.allRules (h : Arranged tables n) : AllRules Rule.WellFormed tables := by
  induction h with
  | start => exact nofun
  | change _ c hrules ih =>
    exact c.run_rules ih standard_wellFormed fun rule hrule =>
      (Rule.fault?_eq_none_iff (hrules rule hrule)).1

/-- Make, extend and change tables, with rules accepted or refused.  Then no pattern is
    a bare placeholder, and all placeholders of a replacement occur in its pattern.
    Whatever formula a pattern matches, the replacement is filled, and the rule gives
    what it is filled to.  A rule that is refused leaves all tables as they are: the
    rules, their order and the stamps. -/
theorem rule_tables_well_formed (h : Arranged tables n) :
    (∀ table ∈ tables, ∀ rule ∈ table.rules, rule.pattern.atom? = none
        ∧ (∀ name ∈ rule.replacement.atoms, name ∈ rule.pattern.atoms)
        ∧ ∀ (β : Type) [BEq β] (f : Formula β) (b : Bindings β),
          Bindings.extend? rule.pattern f [] = some b →
          ∀ s, ∃ g t, (b.fill rule.replacement).run s = (some g, t) ∧ rule.apply f s = (g, t))
      ∧ ∀ (rule : Rule) (fault : RuleFault), rule.fault? = some fault →
          (∀ table ∈ tables, (table.add rule).run n = (.error fault, n))
            ∧ ∀ place, (Change.add place rule).run tables n = (tables, n) := by
  refine ⟨fun table htable rule hrule => ?_, fun rule fault hfault => ?_⟩
  · have hwell := h.allRules table htable rule hrule
    exact ⟨hwell.pattern_atom?, hwell.atoms_subset, fun _ _ _ _ hb => hwell.apply_run hb⟩
  · refine ⟨fun table _ => ?_, Change.add_refused hfault⟩
    rw [RuleTable.add_run, hfault]

/-- A table gets the rule that replaces `p /\ (p \/ q)` by `p`, and refuses the same
    pattern with the replacement `r`.  Against `( a \/ b ) /\ b` the straight attempt fails
    and only the crossed one finds `b` for `p` and `a` for `q`. -/
theorem rule_tables_well_formed_absorption :
    let p : Formula String := .prop 0 "p"
    let r : Formula String := .prop 4 "r"
    let pattern : Formula String := .binary 3 .conj p (.binary 2 .disj p (.prop 1 "q"))
    let table : RuleTable := { stamp := 1, rules := [⟨pattern, p⟩] }
    let fault : RuleFault := .unboundPlaceholder "r" pattern r
    let a : Formula String := .prop 0 "a"
    let b : Formula String := .prop 1 "b"
    let f : Formula String := .binary 3 .conj b (.binary 2 .disj a b)
    Arranged [table] 2
      ∧ (Rule.mk pattern r).fault? = some fault
      ∧ (table.add ⟨pattern, r⟩).run 2 = (.error fault, 2)
      ∧ (Change.add 0 ⟨pattern, r⟩).run [table] 2 = ([table], 2)
      ∧ Bindings.extend? pattern f [] = some [("q", a), ("p", b)]
      ∧ ∀ s, ∃ g t, (Bindings.fill [("q", a), ("p", b)] p).run s = (some g, t)
          ∧ (Rule.mk pattern p).apply f s = (g, t) := by
  intro p r pattern table fault a b f
  let q : Formula String := .prop 1 "q"
  let either : Formula String := .binary 2 .disj p q
  let w : Workspace String :=
    { session := { interned := [r, pattern, either, q, p], nextId := 5 } }
  -- The session in which both rules were written.
  have hrun : Run {} [.built r, .built pattern, .built either, .built q, .built p] w := by
    refine .step (.step (.step run_p_q (.call (.binary .disj p q) ?_))
      (.call (.binary .conj p either) ?_)) (.call (.prop "r") nofun)
    · exact List.forall_mem_cons.2 ⟨.tail _ (.head _), List.forall_mem_singleton.2 (.head _)⟩
    · exact List.forall_mem_cons.2
        ⟨.tail _ (.tail _ (.head _)), List.forall_mem_singleton.2 (.head _)⟩
  have hp : p.InSession := ⟨_, w, hrun, .tail _ (.tail _ (.tail _ (.tail _ (.head _))))⟩
  have hr : r.InSession := ⟨_, w, hrun, .head _⟩
  have hpattern : pattern.InSession := ⟨_, w, hrun, .tail _ (.head _)⟩
  have hadded : Arranged [table] 2 :=
    (Arranged.start.change .empty nofun).change (.add 0 ⟨pattern, p⟩)
      (List.forall_mem_singleton.2 ⟨hpattern, hp⟩)
  have hrefused : Arranged [table] 2 :=
    hadded.change (.add 0 ⟨pattern, r⟩) (List.forall_mem_singleton.2 ⟨hpattern, hr⟩)
  obtain ⟨hrules, hfaults⟩ := rule_tables_well_formed hrefused
  have hmatch : Bindings.extend? pattern f [] = some [("q", a), ("p", b)] := rfl
  have hfault := hfaults ⟨pattern, r⟩ fault rfl
  exact ⟨hrefused, rfl, hfault.1 table (.head _), hfault.2 0, hmatch,
    (hrules table (.head _) ⟨pattern, p⟩ (.head _)).2.2 String f _ hmatch⟩

end Workspace
end LinearTime
