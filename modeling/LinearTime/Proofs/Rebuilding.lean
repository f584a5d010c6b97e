/-
  LinearTime.Proofs.Rebuilding — building a formula again interns nothing.

  A constructor that is called a second time finds what the first call gave, whatever
  was interned in between (`LinearTime.Proofs.Repetition`).  So does an expression, for
  building it is a run of constructor calls.  This holds in every session that comes
  about, of formulas that were forgotten in a reset, too.

  Main results:
    * `Call.run_replays`, `Expression.build_replays` — calls and expressions done twice.
    * `Replays.after` — again after other calls.
    * `rebuilding_interns_nothing` — expressions and calls, in every session that
      comes about.
-/

import LinearTime.Proofs.Marks
import LinearTime.Proofs.Repetition

namespace LinearTime

variable {α : Type} [BEq α] {s : Session α}

/-! ## §1. Calls and expressions done twice -/

namespace Build

variable [EquivBEq α]

namespace Call

theorem run_replays (c : Call α) (s : Session α) : Replays c.run s := by
  cases c with
  | tt => exact tt_replays s
  | ff => exact ff_replays s
  | prop a => exact prop_replays a s
  | not f => exact not_replays f s
  | next f => exact next_replays f s
  | always f => exact (ff_replays s).bind (binary_replays .release _ _ _)
  | eventually f => exact (tt_replays s).bind (binary_replays .strongUntil _ _ _)
  | binary op l r => exact binary_replays op l r s
  | implies l r => exact (not_replays l s).bind (binary_replays .disj _ _ _)

/-- The session after some calls, on whatever formulas. -/
def runAll (calls : List (Call α)) (s : Session α) : Session α :=
  calls.foldl (fun s c => (c.run s).2) s

/-- What calls preserve. -/
theorem runAll_keeps (calls : List (Call α)) (s : Session α) :
    (∀ f ∈ s.interned, f ∈ (runAll calls s).interned)
      ∧ (s.Unrepeated → (runAll calls s).Unrepeated) := by
  induction calls generalizing s with
  | nil => exact ⟨fun _ hf => hf, fun hs => hs⟩
  | cons c calls ih =>
    obtain ⟨hkeeps, hunrepeated⟩ := ih (c.run s).2
    have hc := c.run_replays s
    exact ⟨fun f hf => hkeeps f (hc.keeps f hf), fun hs => hunrepeated (hc.unrepeated hs)⟩

end Call

/-- A job that is done again after some calls gives the same and changes nothing. -/
theorem Replays.after {β : Type} {job : Build α β} (h : Replays job s) (hs : s.Unrepeated)
    (calls : List (Call α)) :
    job (Call.runAll calls (job s).2) = ((job s).1, Call.runAll calls (job s).2) := by
  obtain ⟨hkeeps, hunrepeated⟩ := Call.runAll_keeps calls (job s).2
  exact h.again _ (hunrepeated (h.unrepeated hs)) hkeeps

end Build

theorem Expression.build_replays [EquivBEq α] (e : Expression α) (s : Session α) :
    Build.Replays e.build s := by
  induction e generalizing s with
  | tt => exact Build.tt_replays s
  | ff => exact Build.ff_replays s
  | prop a => exact Build.prop_replays a s
  | not e ih => exact (ih s).bind (Build.not_replays _ _)
  | next e ih => exact (ih s).bind (Build.next_replays _ _)
  | always e ih => exact (ih s).bind (Build.Call.run_replays (.always _) _)
  | eventually e ih => exact (ih s).bind (Build.Call.run_replays (.eventually _) _)
  | binary op l r ihl ihr =>
    exact (ihl s).bind ((ihr _).bind (Build.binary_replays op _ _ _))
  | implies l r ihl ihr =>
    exact (ihl s).bind ((ihr _).bind (Build.Call.run_replays (.implies _ _) _))

/-! ## §2. Sessions that come about -/

namespace Workspace

variable [EquivBEq α] {events : List (Event α)} {w : Workspace α}

/-- Rebuilding interns nothing.  In every session that comes about, by whatever calls,
    simplifications and resets, an expression that is built a second time, after any
    further calls of constructors, gives the very formula that it gave the first time
    and leaves the session as it is: no formula is added, and the next number stays.
    The same is so for each call of a constructor on formulas. -/
theorem rebuilding_interns_nothing (h : Run {} events w) (calls : List (Build.Call α)) :
    (∀ e : Expression α, e.build (Build.Call.runAll calls (e.build w.session).2)
        = ((e.build w.session).1, Build.Call.runAll calls (e.build w.session).2))
      ∧ ∀ c : Build.Call α, c.run (Build.Call.runAll calls (c.run w.session).2)
          = ((c.run w.session).1, Build.Call.runAll calls (c.run w.session).2) := by
  have hunrepeated : w.session.Unrepeated := h.sound.numbered.unrepeated
  exact ⟨fun e => (e.build_replays w.session).after hunrepeated calls,
    fun c => (c.run_replays w.session).after hunrepeated calls⟩

/-- The negation of `p W q` is built, then `r` and `q /\ r`, then the negation again:
    of the nine formulas in the session none is new. -/
theorem rebuilding_interns_nothing_weakUntil :
    let e : Expression String := .not (.binary .weakUntil (.prop "p") (.prop "q"))
    let calls : List (Build.Call String) := [.prop "r", .binary .conj (.prop 1 "q") (.prop 7 "r")]
    let t := Build.Call.runAll calls (e.build {}).2
    e.build t = ((e.build {}).1, t) ∧ t.size = 9 ∧ (e.build t).2.nextId = 9 := by
  intro e calls t
  have hagain : e.build t = ((e.build {}).1, t) :=
    (rebuilding_interns_nothing Run.start calls).1 e
  refine ⟨hagain, by decide, ?_⟩
  rw [hagain]
  decide

end Workspace
end LinearTime
