/-
  LinearTime.Proofs.Marks — what the mark of a formula says.

  Formulas of one session are simplified with many tables, which come, change
  and go meanwhile.  A table simplifies a formula at once if it finds its own
  stamp on it, so a stamp must never stand for other rules than it did when the
  mark was set.  Stamps come from one counter:

      stamps of tables, stamps in marks   <   next stamp
      equal stamps                        ⟹   equal rules

  Every creation and every change of a table takes a stamp that is on no mark.
  A rule that is refused takes none, and then the rules stay what they were.

  Main results:
    * `Change.run_arranges` — what a change does to the tables.
    * `Step.effect` — what a step does.
    * `Step.sound` — what one step preserves, and `Run.sound` for a whole run.
    * `mark_of_equal_rules` — a formula with the mark of a table was the result
      of a call with just the rules that the table has now.
-/

import LinearTime.Proofs.Numbering
import LinearTime.Rules.Standard

namespace LinearTime

variable {α : Type}

/-! ## §1. Calls that come to an end -/

/-- A call to simplify `f` comes to an end: at once, or with what the passes settle
    on, however many passes that takes. -/
inductive RuleTable.Returns [BEq α] (table : RuleTable) (f : Formula α) (s : Session α) :
    Formula α → Session α → Prop
  | atOnce (h : (f.isLiteral || s.producedBy f table.stamp) = true) : Returns table f s f s
  | settled (h : (f.isLiteral || s.producedBy f table.stamp) = false) {passes : Nat}
    {g : Formula α} {t : Session α}
    (hrun : Rule.settle? table.rules passes false f s = (some g, t)) :
    Returns table f s g (t.markProduced g table.stamp)

/-- Simplification returns unless it reaches its limit. -/
theorem RuleTable.simplify_returns [BEq α] (table : RuleTable) (f : Formula α) (s : Session α)
    (h : (Rule.settle? table.rules (Rule.passLimit f) false f s).1.isSome) :
    table.Returns f s (table.simplify f s).1 (table.simplify f s).2 := by
  rw [simplify_run]
  split
  next hdone => exact .atOnce hdone
  next hdone =>
    split
    next g t hrun => exact .settled (Bool.eq_false_iff.2 hdone) hrun
    next t hrun =>
      rw [hrun] at h
      cases h

/-- What a call does that comes to an end.  Unless it gives `f` back at once, `g` gets
    the mark of the table; no other mark changes. -/
structure RuleTable.Returned [BEq α] (table : RuleTable) (f : Formula α) (s : Session α)
    (g : Formula α) (t : Session α) (forgotten : List (Formula α)) : Prop where
  numbered : t.Numbered forgotten
  keeps : ∀ k ∈ s.interned ++ forgotten, k ∈ t.interned ++ forgotten
  result_mem : g ∈ t.interned ++ forgotten
  produced : (t = s ∧ g = f ∧ (f.isLiteral || s.producedBy f table.stamp) = true)
    ∨ ((f.isLiteral || s.producedBy f table.stamp) = false
      ∧ t.produced = (g.id, table.stamp) :: s.produced)

/-- A call that comes to an end marks its result, and nothing else. -/
theorem RuleTable.Returns.returned [BEq α] {table : RuleTable} {f g : Formula α}
    {s t : Session α} {forgotten : List (Formula α)} (h : table.Returns f s g t)
    (hs : s.Numbered forgotten) (hf : f ∈ s.interned ++ forgotten) :
    table.Returned f s g t forgotten := by
  cases h with
  | atOnce hdone => exact ⟨hs, fun _ hk => hk, hf, .inl ⟨rfl, rfl, hdone⟩⟩
  | @settled hran passes _ u hrun =>
    obtain ⟨hnumbered, ⟨hkeeps, hproduced⟩, hresult⟩ :=
      Rule.settle?_known table.rules passes false hs hf
    rw [hrun] at hnumbered hkeeps hproduced hresult
    refine ⟨hnumbered.markProduced g table.stamp, hkeeps, hresult g rfl, .inr ⟨hran, ?_⟩⟩
    show (g.id, table.stamp) :: u.produced = _
    rw [hproduced]

/-- A mark that was just set. -/
theorem Session.producedBy_markProduced (s : Session α) (f : Formula α) (stamp : Nat) :
    (s.markProduced f stamp).producedBy f stamp = true := by
  unfold producedBy markProduced
  rw [List.lookup_cons_self]
  exact beq_self_eq_true _

/-! ## §2. Tables -/

/-- What can be done with the tables at hand. -/
inductive Workspace.Change where
  /-- Makes a table without rules. -/
  | empty
  /-- Makes a table of the built-in rules. -/
  | standard
  /-- Makes a table of these rules; there is none if a rule is refused. -/
  | ofRules (session : Session String) (rules : List Rule)
  /-- Adds a rule to a table; the table stays as it is if the rule is refused. -/
  | add (place : Nat) (rule : Rule)
  /-- Gives a table away for one with a rule more; there is none if the rule is
      refused. -/
  | extend (place : Nat) (rule : Rule)
  /-- Gives a table away. -/
  | drop (place : Nat)

namespace Workspace.Change

/-- The tables that are left, whether a table comes out of the job or a rule is
    refused. -/
def outcome (job : ExceptT RuleFault Stamping RuleTable) (made : RuleTable → List RuleTable)
    (refused : List RuleTable) : Stamping (List RuleTable) := do
  match ← job.run with
  | .ok table => return made table
  | .error _ => return refused

/-- The tables after a change. -/
def run : Change → List RuleTable → Stamping (List RuleTable)
  | empty, tables => do return (← RuleTable.empty) :: tables
  | standard, tables => do return (← RuleTable.standard) :: tables
  | ofRules session rules, tables => outcome (RuleTable.ofRules session rules) (· :: tables) tables
  | add place rule, tables =>
    match tables[place]? with
    | none => return tables
    | some table => outcome (table.add rule) (tables.set place) tables
  | extend place rule, tables =>
    match tables[place]? with
    | none => return tables
    | some table =>
      outcome (table.add rule) (· :: tables.eraseIdx place) (tables.eraseIdx place)
  | drop place, tables => return tables.eraseIdx place

end Workspace.Change

namespace RuleTable

/-- The stamps that were drawn are used up, and a table that comes out of it has one
    of them. -/
def Fresh (n : Nat) (outcome : Except RuleFault RuleTable × Nat) : Prop :=
  n ≤ outcome.2 ∧ ∀ table, outcome.1 = .ok table → n ≤ table.stamp ∧ table.stamp < outcome.2

/-- Adding a rule fails with its fault, or puts it last and draws a stamp. -/
theorem add_run (table : RuleTable) (rule : Rule) (n : Nat) :
    (table.add rule).run n
      = match rule.fault? with
        | some fault => (.error fault, n)
        | none => (.ok { table with stamp := n, rules := table.rules ++ [rule] }, n + 1) := by
  unfold add
  cases rule.fault? <;> rfl

/-- A rule is added under a new stamp; one that is refused draws none. -/
theorem add_fresh (table : RuleTable) (rule : Rule) (n : Nat) :
    Fresh n ((table.add rule).run n) := by
  rw [add_run]
  cases rule.fault? with
  | some fault => exact ⟨le_refl n, nofun⟩
  | none =>
    refine ⟨Nat.le_succ n, ?_⟩
    intro added hadded
    cases hadded
    exact ⟨le_refl n, Nat.lt_succ_self n⟩

/-- The rules that are left go to the table with the first one, unless it is refused. -/
theorem addAll_cons_run (table : RuleTable) (rule : Rule) (rules : List Rule) (n : Nat) :
    (addAll table (rule :: rules)).run n
      = match (table.add rule).run n with
        | (.ok added, m) => (addAll added rules).run m
        | (.error fault, m) => (.error fault, m) := by
  show (ExceptT.run (table.add rule >>= fun added => addAll added rules)) n = _
  rw [ExceptT.run_bind]
  generalize (table.add rule).run = job
  show StateT.bind job _ n = _
  unfold StateT.bind
  generalize job n = outcome
  obtain ⟨_ | _, _⟩ := outcome <;> rfl

/-- Adding rules one after the other draws a stamp for each. -/
theorem addAll_fresh (rules : List Rule) {table : RuleTable} {n m : Nat} (hn : n ≤ table.stamp)
    (hm : table.stamp < m) : Fresh n ((addAll table rules).run m) := by
  induction rules generalizing table m with
  | nil =>
    have hle : n ≤ m := by omega
    refine ⟨hle, ?_⟩
    intro same hsame
    cases hsame
    exact ⟨hn, hm⟩
  | cons rule rules ih =>
    have hle : n ≤ m := by omega
    have hadd := add_fresh table rule m
    rw [addAll_cons_run]
    rw [add_run] at hadd ⊢
    -- a refused rule ends the change, any other takes a new stamp
    cases hfault : rule.fault? with
    | some fault => exact ⟨hle, nofun⟩
    | none => exact ih hle (Nat.lt_succ_self m)

/-- A table made of rules has a new stamp, however often it was extended. -/
theorem ofRules_fresh (session : Session String) (rules : List Rule) (n : Nat) :
    Fresh n ((ofRules session rules).run n) :=
  have hall : Fresh n ((addAll { stamp := n, session } rules).run (n + 1)) :=
    addAll_fresh rules (le_refl n) (Nat.lt_succ_self n)
  hall

/-- The built-in table takes one stamp, whatever its rules are. -/
theorem standard_run (n : Nat) :
    standard n = ({ stamp := n, session := (standardRules.run {}).2,
                    rules := (standardRules.run {}).1 }, n + 1) := by
  unfold standard
  -- the rules are not to be evaluated
  generalize standardRules.run {} = built
  rfl

/-- The rules of the default table do not depend on its stamp. -/
theorem standard_rules (stamp : Nat) : (standard stamp).1.rules = (standardRules.run {}).1 := by
  rw [standard_run]

/-- The default table has a stamp that was drawn for it. -/
theorem standard_fresh (n : Nat) : Fresh n (.ok (standard n).1, (standard n).2) := by
  rw [standard_run]
  refine ⟨Nat.le_succ n, ?_⟩
  rintro table ⟨⟩
  exact ⟨le_refl n, Nat.lt_succ_self n⟩

/-- The empty table has a stamp that was drawn for it. -/
theorem empty_fresh (n : Nat) : Fresh n (.ok (empty n).1, (empty n).2) := by
  refine ⟨Nat.le_succ n, ?_⟩
  rintro table ⟨⟩
  exact ⟨le_refl n, Nat.lt_succ_self n⟩

end RuleTable

namespace Workspace

/-- At most one table is new; it has a stamp that was drawn just now. -/
def Arranges (tables : List RuleTable) (n : Nat) (outcome : List RuleTable × Nat) : Prop :=
  n ≤ outcome.2 ∧ ∃ fresh : RuleTable, ∀ table ∈ outcome.1,
    table ∈ tables ∨ (table = fresh ∧ n ≤ fresh.stamp ∧ fresh.stamp < outcome.2)

/-- Leaving tables out arranges them. -/
theorem Arranges.of_subset {tables kept : List RuleTable} {n m : Nat} (hm : n ≤ m)
    (h : ∀ table ∈ kept, table ∈ tables) : Arranges tables n (kept, m) :=
  ⟨hm, ⟨{ stamp := 0 }, fun table htable => .inl (h table htable)⟩⟩

/-- One table with a new stamp among those that were there arranges them. -/
theorem Arranges.of_fresh {tables kept : List RuleTable} {n m : Nat} {fresh : RuleTable}
    (h : RuleTable.Fresh n (.ok fresh, m))
    (hkept : ∀ table ∈ kept, table = fresh ∨ table ∈ tables) : Arranges tables n (kept, m) := by
  refine ⟨h.1, fresh, ?_⟩
  intro table htable
  rcases hkept table htable with rfl | hold
  · exact .inr ⟨rfl, h.2 table rfl⟩
  · exact .inl hold

/-- A table that is made joins those that there are. -/
theorem Change.make_arranges {tables : List RuleTable} {n : Nat} {job : Stamping RuleTable}
    (hfresh : RuleTable.Fresh n (.ok (job n).1, (job n).2)) :
    Arranges tables n ((do return (← job) :: tables : Stamping (List RuleTable)) n) :=
  Arranges.of_fresh hfresh fun _ htable => List.mem_cons.1 htable

/-- A refusal loses the table, not the stamps that were drawn. -/
theorem Change.outcome_run (job : ExceptT RuleFault Stamping RuleTable)
    (made : RuleTable → List RuleTable) (refused : List RuleTable) (n : Nat) :
    Change.outcome job made refused n
      = match job.run n with
        | (.ok table, m) => (made table, m)
        | (.error _, m) => (refused, m) := by
  simp only [Change.outcome, bind, StateT.bind]
  generalize job.run n = result
  obtain ⟨_ | _, _⟩ := result <;> rfl

/-- A table that comes out of a job joins those that are kept. -/
theorem Change.outcome_arranges {tables refused : List RuleTable} {n : Nat}
    {job : ExceptT RuleFault Stamping RuleTable} {made : RuleTable → List RuleTable}
    (hfresh : RuleTable.Fresh n (job.run n))
    (hmade : ∀ fresh, ∀ table ∈ made fresh, table = fresh ∨ table ∈ tables)
    (hrefused : ∀ table ∈ refused, table ∈ tables) :
    Arranges tables n (Change.outcome job made refused n) := by
  rw [outcome_run]
  revert hfresh
  generalize job.run n = result
  intro hfresh
  obtain ⟨_ | fresh, m⟩ := result
  · exact .of_subset hfresh.1 hrefused
  · exact .of_fresh hfresh (hmade fresh)

/-- The built-in table joins those at hand. -/
theorem Change.standard_run (tables : List RuleTable) (n : Nat) :
    Change.run .standard tables n = ((RuleTable.standard n).1 :: tables, n + 1) := by
  have hstamp : (RuleTable.standard n).2 = n + 1 := by rw [RuleTable.standard_run]
  unfold run
  -- the rules are not to be evaluated
  generalize RuleTable.standard = job at hstamp ⊢
  show ((job n).1 :: tables, (job n).2) = _
  rw [hstamp]

/-- What a change does to the tables. -/
theorem Change.run_arranges (change : Change) (tables : List RuleTable) (n : Nat) :
    Arranges tables n (change.run tables n) := by
  cases change with
  | empty => exact make_arranges (RuleTable.empty_fresh n)
  | standard => exact make_arranges (RuleTable.standard_fresh n)
  | ofRules session rules =>
    exact outcome_arranges (RuleTable.ofRules_fresh session rules n)
      (fun _ _ htable => List.mem_cons.1 htable) fun _ htable => htable
  | add place rule =>
    -- Without a table at the place nothing changes.
    cases hplace : tables[place]? with
    | none =>
      simp only [Change.run, hplace]
      exact .of_subset (le_refl n) fun _ htable => htable
    | some table =>
      simp only [Change.run, hplace]
      exact outcome_arranges (table.add_fresh rule n)
        (fun _ _ htable => (List.mem_or_eq_of_mem_set htable).symm) fun _ htable => htable
  | extend place rule =>
    cases hplace : tables[place]? with
    | none =>
      simp only [Change.run, hplace]
      exact .of_subset (le_refl n) fun _ htable => htable
    | some table =>
      simp only [Change.run, hplace]
      exact outcome_arranges (table.add_fresh rule n)
        (fun _ _ htable => (List.mem_cons.1 htable).imp_right List.mem_of_mem_eraseIdx)
        fun _ htable => List.mem_of_mem_eraseIdx htable
  | drop place =>
    exact .of_subset (le_refl n) fun _ htable => List.mem_of_mem_eraseIdx htable

namespace Arranges

variable {tables : List RuleTable} {n : Nat} {outcome : List RuleTable × Nat}

/-- Stamps stay below the next one to draw. -/
theorem stamp_lt (h : Arranges tables n outcome) (hlt : ∀ table ∈ tables, table.stamp < n) :
    ∀ table ∈ outcome.1, table.stamp < outcome.2 := by
  obtain ⟨hle, fresh, htables⟩ := h
  intro table ht
  rcases htables table ht with hold | ⟨rfl, -, hnew⟩
  · exact lt_of_lt_of_le (hlt table hold) hle
  · exact hnew

/-- A table with a stamp that was drawn earlier is not new. -/
theorem mem_of_stamp_lt (h : Arranges tables n outcome) {table : RuleTable}
    (ht : table ∈ outcome.1) (hlt : table.stamp < n) : table ∈ tables := by
  obtain ⟨-, fresh, htables⟩ := h
  rcases htables table ht with hold | ⟨rfl, hnew, -⟩
  · exact hold
  · exact absurd hnew (Nat.not_le.2 hlt)

/-- Tables with one stamp keep having the same rules. -/
theorem rules_eq (h : Arranges tables n outcome) (hlt : ∀ table ∈ tables, table.stamp < n)
    (hrules : ∀ table ∈ tables, ∀ other ∈ tables, table.stamp = other.stamp →
      table.rules = other.rules) :
    ∀ table ∈ outcome.1, ∀ other ∈ outcome.1, table.stamp = other.stamp →
      table.rules = other.rules := by
  obtain ⟨-, fresh, htables⟩ := h
  intro table ht other ho heq
  -- a new stamp is none that was drawn before
  rcases htables table ht with hold | ⟨rfl, hnew, -⟩
  · rcases htables other ho with hold' | ⟨rfl, hnew, -⟩
    · exact hrules table hold other hold' heq
    · have hdrawn := hlt table hold
      omega
  · rcases htables other ho with hold' | ⟨rfl, -, -⟩
    · have hdrawn := hlt other hold'
      omega
    · rfl

end Arranges

end Workspace

/-! ## §3. Runs -/

/-- A session, the formulas that it forgot, the tables at hand, and the counter that
    stamps are drawn from. -/
structure Workspace (α : Type) where
  session : Session α := {}
  forgotten : List (Formula α) := []
  tables : List RuleTable := []
  nextStamp : Nat := 0

namespace Workspace

/-- The formulas that exist. -/
def formulas (w : Workspace α) : List (Formula α) := w.session.interned ++ w.forgotten

/-- What a step was. -/
inductive Event (α : Type) where
  /-- A call of a constructor gave this formula. -/
  | built (f : Formula α)
  | reset
  /-- Tables were made, changed or given away. -/
  | arranged
  /-- A call to simplify `f` with this table came to an end and gave `g`. -/
  | simplified (table : RuleTable) (f g : Formula α)

variable [BEq α]

/-- One step: a call on formulas that exist, a reset, or a change of the tables. -/
inductive Step (w : Workspace α) : Event α → Workspace α → Prop
  | call (c : Build.Call α) (hc : ∀ f ∈ c.operands, f ∈ w.formulas) :
    Step w (.built (c.run w.session).1) { w with session := (c.run w.session).2 }
  | reset : Step w .reset { w with session := w.session.reset, forgotten := w.formulas }
  | arrange (change : Change) :
    Step w .arranged { w with
      tables := (change.run w.tables w.nextStamp).1
      nextStamp := (change.run w.tables w.nextStamp).2 }
  | simplify {table : RuleTable} {f g : Formula α} {s : Session α} (ht : table ∈ w.tables)
    (hf : f ∈ w.formulas) (h : table.Returns f w.session g s) :
    Step w (.simplified table f g) { w with session := s }

/-- Any number of steps, the latest event first. -/
inductive Run (u : Workspace α) : List (Event α) → Workspace α → Prop
  | start : Run u [] u
  | step {events : List (Event α)} {v w : Workspace α} {e : Event α} (h : Run u events v)
    (hstep : Step v e w) : Run u (e :: events) w

variable {u v w : Workspace α} {e : Event α} {events : List (Event α)} {table : RuleTable}
  {f g : Formula α}

/-! ## §4. What a step does -/

/-- What one step does: no formula is lost, at most one table is new, and at most one
    formula is marked, the result of a call in which passes were run. -/
structure Effect (v : Workspace α) (e : Event α) (w : Workspace α) : Prop where
  numbered : w.session.Numbered w.forgotten
  keeps : ∀ k ∈ v.formulas, k ∈ w.formulas
  arranges : Arranges v.tables v.nextStamp (w.tables, w.nextStamp)
  produced : w.session.produced = v.session.produced
    ∨ ∃ table f g, e = .simplified table f g ∧ table ∈ v.tables ∧ g ∈ w.formulas
        ∧ (f.isLiteral || v.session.producedBy f table.stamp) = false
        ∧ w.session.produced = (g.id, table.stamp) :: v.session.produced

/-- Every step has the effect described. -/
theorem Step.effect (h : Step v e w) (hv : v.session.Numbered v.forgotten) : Effect v e w := by
  have hsame : Arranges v.tables v.nextStamp (v.tables, v.nextStamp) :=
    .of_subset (le_refl _) fun _ ht => ht
  -- Only the last kind of step marks anything, and it marks its own result.
  cases h with
  | call c hc =>
    have hleads := Build.Call.run_leads hv c hc
    exact ⟨hleads.sound, hleads.keeps, hsame, .inl hleads.later.produced⟩
  | reset => exact ⟨hv.reset, fun _ hk => hk, hsame, .inl rfl⟩
  | arrange change =>
    exact ⟨hv, fun _ hk => hk, change.run_arranges v.tables v.nextStamp, .inl rfl⟩
  | @simplify table f g s ht hf hreturns =>
    have hcall := hreturns.returned hv hf
    refine ⟨hcall.numbered, hcall.keeps, hsame, ?_⟩
    rcases hcall.produced with ⟨rfl, -, -⟩ | ⟨hran, hproduced⟩
    · exact .inl rfl
    · exact .inr ⟨table, f, g, rfl, ht, hcall.result_mem, hran, hproduced⟩

/-! ## §5. What a step preserves -/

/-- Within the run, the table simplified a formula to `g`, and not at once. -/
def Produces (events : List (Event α)) (w : Workspace α) (table : RuleTable) (g : Formula α) :
    Prop :=
  ∃ earlier v f v' later, Run {} earlier v ∧ table ∈ v.tables
    ∧ (f.isLiteral || v.session.producedBy f table.stamp) = false
    ∧ Step v (.simplified table f g) v' ∧ Run v' later w
    ∧ events = later ++ .simplified table f g :: earlier

/-- Numbers tell formulas apart, stamps were drawn, equal stamps stand for equal
    rules, and whoever has a mark was produced by a table of the rules that the stamp
    stands for. -/
structure Sound (events : List (Event α)) (w : Workspace α) : Prop where
  numbered : w.session.Numbered w.forgotten
  stamp_lt : ∀ table ∈ w.tables, table.stamp < w.nextStamp
  rules_eq : ∀ table ∈ w.tables, ∀ other ∈ w.tables, table.stamp = other.stamp →
    table.rules = other.rules
  marked : ∀ id stamp, w.session.produced.lookup id = some stamp →
    ∃ table g, Produces events w table g ∧ g ∈ w.formulas ∧ g.id = id ∧ table.stamp = stamp
      ∧ stamp < w.nextStamp ∧ ∀ other ∈ w.tables, other.stamp = stamp → other.rules = table.rules

/-- The empty workspace is sound before anything has happened. -/
theorem Sound.start : Sound [] ({} : Workspace α) :=
  ⟨Session.numbered_start, nofun, nofun, nofun⟩

/-- What was produced stays so, whatever happens next. -/
theorem Produces.step (h : Produces events v table g) (hstep : Step v e w) :
    Produces (e :: events) w table g := by
  obtain ⟨earlier, x, f, y, later, hearlier, ht, hran, hcall, hlater, rfl⟩ := h
  exact ⟨earlier, x, f, y, e :: later, hearlier, ht, hran, hcall, hlater.step hstep, rfl⟩

/-- What one step preserves. -/
theorem Step.sound (hstep : Step v e w) (hv : Run {} events v) (h : Sound events v) :
    Sound (e :: events) w := by
  obtain ⟨hnumbered, hkeeps, harranges, hproduced⟩ := hstep.effect h.numbered
  have hrules := harranges.rules_eq h.stamp_lt h.rules_eq
  refine ⟨hnumbered, harranges.stamp_lt h.stamp_lt, hrules, ?_⟩
  -- a mark that was there before
  have hold (id stamp : Nat) (hmark : v.session.produced.lookup id = some stamp) :
      ∃ call k, Produces (e :: events) w call k ∧ k ∈ w.formulas ∧ k.id = id
        ∧ call.stamp = stamp ∧ stamp < w.nextStamp
        ∧ ∀ other ∈ w.tables, other.stamp = stamp → other.rules = call.rules := by
    obtain ⟨call, k, hproduces, hk, hid, hstamp, hlt, hequal⟩ := h.marked id stamp hmark
    refine ⟨call, k, hproduces.step hstep, hkeeps k hk, hid, hstamp,
      lt_of_lt_of_le hlt harranges.1, ?_⟩
    rintro other ho rfl
    exact hequal other (harranges.mem_of_stamp_lt ho hlt) rfl
  intro id stamp hmark
  rcases hproduced with hsame | ⟨table, f, g, rfl, ht, hg, hran, hnew⟩
  · rw [hsame] at hmark
    exact hold id stamp hmark
  · rw [hnew, List.lookup_cons] at hmark
    split at hmark
    next heq =>
      obtain rfl := Option.some.inj hmark
      have hnow : Produces (.simplified table f g :: events) w table g :=
        ⟨events, v, f, w, [], hv, ht, hran, hstep, .start, rfl⟩
      have hlt := h.stamp_lt table ht
      refine ⟨table, g, hnow, hg, (beq_iff_eq.1 heq).symm, rfl,
        lt_of_lt_of_le hlt harranges.1, ?_⟩
      intro other ho hstamp
      -- the tables are those that there were
      have ho' := harranges.mem_of_stamp_lt ho (hstamp ▸ hlt)
      exact h.rules_eq other ho' table ht hstamp
    next => exact hold id stamp hmark

/-- What a whole run preserves. -/
theorem Run.sound (h : Run {} events w) : Sound events w := by
  induction h with
  | start => exact .start
  | step hrun hstep ih => exact hstep.sound hrun ih

/-- Two propositions are made. -/
theorem run_p_q :
    Run {} [.built (.prop 1 "q"), .built (.prop 0 "p")]
      ({ session := { interned := [.prop 1 "q", .prop 0 "p"], nextId := 2 } } : Workspace String) :=
  .step (.step .start (.call (.prop "p") nofun)) (.call (.prop "q") nofun)

/-! ## §6. Marks -/

/-- Marks are never stale.  Let a table find its own stamp on a formula, so that it
    would give it back at once.  Then the formula was the result of an earlier call,
    in which passes were run, with a table of the same stamp and of just the rules
    that the table has now — whatever calls were made, whatever tables were made,
    changed or given away, with rules accepted or refused, and whenever the session
    was reset. -/
theorem mark_of_equal_rules (h : Run {} events w) (ht : table ∈ w.tables) (hf : f ∈ w.formulas)
    (hmark : w.session.producedBy f table.stamp = true) :
    ∃ earlier v call k v' later, Run {} earlier v
      ∧ call ∈ v.tables ∧ call.stamp = table.stamp ∧ call.rules = table.rules
      ∧ (k.isLiteral || v.session.producedBy k call.stamp) = false
      ∧ Step v (.simplified call k f) v' ∧ Run v' later w
      ∧ events = later ++ .simplified call k f :: earlier := by
  have hsound := h.sound
  have hlookup : w.session.produced.lookup f.id = some table.stamp := beq_iff_eq.1 hmark
  obtain ⟨call, g, hproduces, hg, hid, hstamp, -, hrules⟩ := hsound.marked _ _ hlookup
  obtain rfl : g = f := hsound.numbered.eq_of_id_eq hg hf hid
  obtain ⟨earlier, v, k, v', later, hearlier, hcall, hran, hstep, hlater, heq⟩ := hproduces
  exact ⟨earlier, v, call, k, v', later, hearlier, hcall, hstamp, (hrules table ht rfl).symm,
    hran, hstep, hlater, heq⟩

/-- A table is made, gets the rule that replaces `p /\ p` by `p`, and refuses a bare
    placeholder.  Then it simplifies `X (a /\ a)` to `X a`. -/
theorem run_conj_self :
    let p : Formula String := .prop 0 "p"
    let a : Formula String := .prop 0 "a"
    let both : Formula String := .binary 1 .conj a a
    let f : Formula String := .next 2 both
    let table : RuleTable := { stamp := 1, rules := [⟨.binary 1 .conj p p, p⟩] }
    let negated : List (Formula String) := [.next 5 (.negProp 4 0 "a"), .negProp 4 0 "a"]
    Run {}
      [.simplified table f (.next 3 a), .built f, .built both, .built a,
        .arranged, .arranged, .arranged]
      { session :=
          { interned := negated ++ [.next 3 a, f, both, a], nextId := 6, produced := [(3, 1)] }
        tables := [table]
        nextStamp := 2 } := by
  intro p a both f table negated
  -- the table
  have hmade : Run {} [.arranged]
      ({ tables := [{ stamp := 0 }], nextStamp := 1 } : Workspace String) :=
    .step .start (.arrange .empty)
  have hadded : Run {} [.arranged, .arranged]
      ({ tables := [table], nextStamp := 2 } : Workspace String) :=
    .step hmade (.arrange (.add 0 ⟨.binary 1 .conj p p, p⟩))
  have hrefused : Run {} [.arranged, .arranged, .arranged]
      ({ tables := [table], nextStamp := 2 } : Workspace String) :=
    .step hadded (.arrange (.add 0 ⟨p, p⟩))
  -- the formulas
  let s : Session String := { interned := [f, both, a], nextId := 3 }
  have hbuilt : Run {} [.built f, .built both, .built a, .arranged, .arranged, .arranged]
      { session := s, tables := [table], nextStamp := 2 } := by
    refine .step (.step (.step hrefused (.call (.prop "a") nofun)) (.call (.binary .conj a a) ?_))
      (.call (.next both) ?_)
    · exact List.forall_mem_cons.2 ⟨.head _, List.forall_mem_singleton.2 (.head _)⟩
    · exact List.forall_mem_singleton.2 (.head _)
  -- the second pass is over the negation and changes nothing
  have hpasses : Rule.settle? table.rules 2 false f s
      = (some (.next 3 a), { interned := negated ++ [.next 3 a, f, both, a], nextId := 6 }) := by
    cbv
  exact hbuilt.step (.simplify (.head _) (.head _) (.settled rfl hpasses))

/-- After a reset, and with another table at hand, the mark on `X a` still is from the
    call that gave `X a`. -/
theorem mark_of_equal_rules_conj_self :
    let p : Formula String := .prop 0 "p"
    let g : Formula String := .next 3 (.prop 0 "a")
    let table : RuleTable := { stamp := 1, rules := [⟨.binary 1 .conj p p, p⟩] }
    ∃ events w, Run {} events w ∧ table ∈ w.tables ∧ g ∈ w.formulas
      ∧ w.session.producedBy g table.stamp = true
      ∧ ∃ earlier v call k v' later, Run {} earlier v
        ∧ call ∈ v.tables ∧ call.stamp = table.stamp ∧ call.rules = table.rules
        ∧ (k.isLiteral || v.session.producedBy k call.stamp) = false
        ∧ Step v (.simplified call k g) v' ∧ Run v' later w
        ∧ events = later ++ .simplified call k g :: earlier := by
  intro p g table
  let both : Formula String := .binary 1 .conj (.prop 0 "a") (.prop 0 "a")
  let w : Workspace String :=
    { session := { nextId := 6, produced := [(3, 1)] }
      forgotten := [.next 5 (.negProp 4 0 "a"), .negProp 4 0 "a", g, .next 2 both, both, .prop 0 "a"]
      tables := [{ stamp := 2 }, table]
      nextStamp := 3 }
  -- After the reset the mark is left, though its formula is no longer in the session.
  have hrun : Run {} _ w := (run_conj_self.step .reset).step (.arrange .empty)
  have ht : table ∈ w.tables := .tail _ (.head _)
  have hg : g ∈ w.formulas := .tail _ (.tail _ (.head _))
  exact ⟨_, w, hrun, ht, hg, rfl, mark_of_equal_rules hrun ht hg rfl⟩

end Workspace
end LinearTime
