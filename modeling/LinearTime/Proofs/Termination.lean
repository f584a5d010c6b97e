/-
  LinearTime.Proofs.Termination — loops that come to an end.

  Two loops go on until there is nothing left to do: the passes over a formula
  and its negation, and the steps of a tableau.  Both are defined with a limit.
  The limit is no part of what they compute: for each of the two there is a
  number of rounds after which nothing is left to do, before which there is
  something, and after which a larger limit changes nothing.

      passes   each but every second one lightens the formula
      steps    each one lowers the potential of the tableau

  Main results:
    * `Rule.settle?_ends` — passes that settle at all do so after a number of
      them that does not depend on the limit.
    * `standard_passes_end` — passes with the built-in rules do.
    * `growth_ends` — the work on the tableau of any formula is done at last.
-/

import LinearTime.Proofs.GrowthBound
import LinearTime.Proofs.Fixpoint
import LinearTime.Proofs.Marks

namespace LinearTime

variable {α : Type} [BEq α]

/-! ## §1. Passes -/

namespace Rule

variable {rules : List Rule} {negated : Bool} {f g : Formula α} {s t : Session α}

/-- A larger limit does not change what passes settled on. -/
theorem settle?_of_le {passes limit : Nat}
    (h : settle? rules passes negated f s = (some g, t)) (hle : passes ≤ limit) :
    settle? rules limit negated f s = (some g, t) := by
  induction passes generalizing limit negated f s with
  | zero => cases h
  | succ passes ih =>
    -- the larger limit allows a pass, too
    obtain ⟨limit, rfl⟩ := Nat.exists_eq_add_of_le' (Nat.one_le_of_lt hle)
    have hpass : pass rules f s = ((pass rules f s).1, (pass rules f s).2) := rfl
    rw [settle?_succ hpass rfl] at h ⊢
    split at h
    next hdone =>
      rw [if_pos hdone]
      exact h
    next hgo =>
      rw [if_neg hgo]
      exact ih h (Nat.le_of_succ_le_succ hle)

/-- Passes that settle within some limit settle after a certain number of them, and
    on the same formula whatever else the limit is. -/
theorem settle?_ends {limit : Nat} (h : (settle? rules limit negated f s).1.isSome) :
    ∃ passes g t, passes ≤ limit
      ∧ (∀ n < passes, (settle? rules n negated f s).1 = none)
      ∧ ∀ n, passes ≤ n → settle? rules n negated f s = (some g, t) := by
  classical
  -- the least limit that is enough is the number of passes that are run
  have hsome : ∃ n, (settle? rules n negated f s).1.isSome = true := ⟨limit, h⟩
  obtain ⟨g, hg⟩ := Option.isSome_iff_exists.1 (Nat.find_spec hsome)
  refine ⟨Nat.find hsome, g, (settle? rules (Nat.find hsome) negated f s).2,
    Nat.find_min' hsome h, ?_, ?_⟩
  · intro n hn
    exact Option.not_isSome_iff_eq_none.1 (Nat.find_min hsome hn)
  · intro n hn
    exact settle?_of_le (Prod.ext hg rfl) hn

end Rule

/-- Simplification with the built-in rules comes to an end.  Over every formula of
    every session, the passes stop after a certain number of them, and not before;
    it is at most twice the weight of the formula and two, however large the
    formulas are that negation makes.  With no smaller limit, and so with the one
    that there is, the result is that of the passes; and the call returns. -/
theorem RuleTable.standard_passes_end [EquivBEq α] (stamp : Nat) {f : Formula α}
    {s : Session α} (h : s.Reached) (hf : f ∈ s.interned) :
    ∃ passes g t, passes ≤ 2 * f.mass + 2
      ∧ (∀ n < passes, (Rule.settle? (standard stamp).1.rules n false f s).1 = none)
      ∧ (∀ n, passes ≤ n → Rule.settle? (standard stamp).1.rules n false f s = (some g, t))
      ∧ ((f.isLiteral || s.producedBy f (standard stamp).1.stamp) = false →
          (standard stamp).1.simplify f s = (g, t.markProduced g (standard stamp).1.stamp))
      ∧ (standard stamp).1.Returns f s ((standard stamp).1.simplify f s).1
          ((standard stamp).1.simplify f s).2 := by
  have hsome := (Rule.settle?_isSome (standard_lightens stamp) (2 * f.mass + 2) false
    h.canonical hf (Nat.lt_succ_self _)).result
  obtain ⟨passes, g, t, hle, hbefore, hafter⟩ := Rule.settle?_ends hsome
  -- the limit of the call is large enough
  have hlimit : passes ≤ Rule.passLimit f := hle.trans (Rule.mass_lt_passLimit f)
  refine ⟨passes, g, t, hle, hbefore, hafter, ?_, ?_⟩
  · intro hran
    rw [simplify_run, hran, hafter _ hlimit]
    rfl
  · refine (standard stamp).1.simplify_returns f s ?_
    rw [hafter _ hlimit]
    rfl

/-- The negation of `a W b` is larger than `a W b`; passes come to an end over both. -/
theorem RuleTable.standard_passes_end_weakUntil :
    let e : Expression String := .binary .weakUntil (.prop "a") (.prop "b")
    ∃ passes g t, passes ≤ 2 * (e.not.build {}).1.mass + 2
      ∧ (∀ n < passes, (Rule.settle? (standard 0).1.rules n false (e.not.build {}).1
          (e.not.build {}).2).1 = none)
      ∧ ∀ n, passes ≤ n → Rule.settle? (standard 0).1.rules n false (e.not.build {}).1
          (e.not.build {}).2 = (some g, t) := by
  intro e
  have hs : (e.not.build {}).2.Reached := Session.Reached.start.build e.not
  have hf : (e.not.build {}).1 ∈ (e.not.build {}).2.interned :=
    Session.Reached.start.built_mem e.not
  obtain ⟨passes, g, t, hle, hbefore, hafter, -⟩ := standard_passes_end 0 hs hf
  exact ⟨passes, g, t, hle, hbefore, hafter⟩

/-! ## §2. Steps of a tableau -/

namespace Tableau

omit [BEq α] in
/-- Steps with a limit are steps without one, up to that many. -/
theorem run_eq_iterate (steps : Nat) (t : Tableau α) : t.run steps = step^[steps] t := by
  induction steps generalizing t with
  | zero => rfl
  | succ steps ih =>
    unfold run
    split
    next hempty =>
      -- with no work left, a step changes nothing
      have hfixed : t.step = t := step_of_nil (List.isEmpty_iff.1 hempty)
      exact (Function.iterate_fixed hfixed (steps + 1)).symm
    next => rw [ih, Function.iterate_succ_apply]

omit [BEq α] in
/-- Once there is no work left, nothing changes any more. -/
theorem iterate_of_done {t : Tableau α} {done steps : Nat} (h : (step^[done] t).work = [])
    (hle : done ≤ steps) : step^[steps] t = step^[done] t := by
  obtain ⟨more, rfl⟩ := Nat.exists_eq_add_of_le' hle
  rw [Function.iterate_add_apply]
  exact Function.iterate_fixed (step_of_nil h) more

/-- The tableau of every formula comes to an end, under both ways of merging nodes:
    there is work up to a certain step, and none from then on, and what there is then
    is the fully grown tableau.  The formula may come from whatever calls on formulas,
    also on formulas that the session has forgotten. -/
theorem growth_ends {events : List (Workspace.Event α)} {w : Workspace α}
    (h : Workspace.Run {} events w) {root : Formula α} (hroot : root ∈ w.formulas)
    (merge : Merge) :
    ∃ steps ≤ stepLimit root,
      (∀ n, (step^[n] (start merge root)).work = [] ↔ steps ≤ n)
        ∧ grow merge root = step^[steps] (start merge root) := by
  classical
  have hgrown : grow merge root = step^[stepLimit root] (start merge root) := run_eq_iterate _ _
  have hdone : (step^[stepLimit root] (start merge root)).work = [] := by
    rw [← hgrown]
    exact grow_done h.sound.numbered.family hroot merge
  -- the first step after which there is no work
  have hends : ∃ n, (step^[n] (start merge root)).work = [] := ⟨_, hdone⟩
  have hle : Nat.find hends ≤ stepLimit root := Nat.find_min' hends hdone
  have hfirst := Nat.find_spec hends
  refine ⟨Nat.find hends, hle, ?_, ?_⟩
  · intro n
    constructor
    · exact Nat.find_min' hends
    · intro hn
      rw [iterate_of_done hfirst hn]
      exact hfirst
  · rw [hgrown, iterate_of_done hfirst hle]

/-- The tableau of `a U b`. -/
theorem growth_ends_until :
    let root : Formula String := .binary 2 .strongUntil (.prop 0 "a") (.prop 1 "b")
    ∀ merge, ∃ steps ≤ stepLimit root,
      (∀ n, (step^[n] (start merge root)).work = [] ↔ steps ≤ n)
        ∧ grow merge root = step^[steps] (start merge root) := by
  intro root merge
  have ha : Workspace.Run {} [.built (.prop 0 "a")]
      ({ session := { interned := [.prop 0 "a"], nextId := 1 } } : Workspace String) :=
    .step .start (.call (.prop "a") nofun)
  have hb : Workspace.Run {} [.built (.prop 1 "b"), .built (.prop 0 "a")]
      ({ session := { interned := [.prop 1 "b", .prop 0 "a"], nextId := 2 } } : Workspace String) :=
    .step ha (.call (.prop "b") nofun)
  have hroot := hb.step (.call (.binary .strongUntil (.prop 0 "a") (.prop 1 "b"))
    (List.forall_mem_cons.2 ⟨.tail _ (.head _), List.forall_mem_singleton.2 (.head _)⟩))
  exact growth_ends hroot List.mem_cons_self merge

end Tableau
end LinearTime
