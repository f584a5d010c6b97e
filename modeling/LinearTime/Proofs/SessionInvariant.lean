/-
  LinearTime.Proofs.SessionInvariant — what holds of the formulas of a session.

  A session develops in steps: calls of constructors and simplifications, on
  formulas that it shares, and resets.  Each step gives new formulas numbers
  that were free, and no step makes a number free again (`Step.ascends`).  So
  whatever is interned later has a larger number than all that was shared
  before, also if a reset lies between the two:

      shared before  <  next number then  ≤  interned later

  Main results:
    * `Onward.ascends` — numbers go up along every run.
    * `session_invariant` — numbers, sharing, shapes and their order in every
      session that comes about.
-/

import Mathlib
import LinearTime.Proofs.Histories
import LinearTime.Proofs.Likeness

namespace LinearTime
namespace Session

variable {α : Type}

/-! ## §1. Runs -/

/-- One step of a session. -/
inductive Step [BEq α] (s : Session α) : Session α → Prop
  | call (c : Build.Call α) (hc : ∀ f ∈ c.operands, f ∈ s.interned) : Step s (c.run s).2
  | simplify (table : RuleTable) {f : Formula α} (hf : f ∈ s.interned) :
    Step s (table.simplify f s).2
  | reset : Step s s.reset

/-- The session `t` comes about from `s`, in any number of steps. -/
def Onward [BEq α] (s t : Session α) : Prop := Relation.ReflTransGen Step s t

variable [BEq α] [EquivBEq α] {s t : Session α}

omit [EquivBEq α] in
/-- A step of a session that comes about leads to one that comes about. -/
theorem Reached.step (h : s.Reached) (hst : Step s t) : t.Reached := by
  cases hst with
  | call c hc => exact .call c h hc
  | simplify table hf => exact .simplify table h hf
  | reset => exact .reset h

/-- What one step does to the numbers. -/
theorem Step.ascends (hst : Step s t) (h : s.Reached) : Ascends s t := by
  cases hst with
  | call c hc => exact (c.run_leads h.canonical hc).later.toAscends
  | simplify table hf => exact (table.simplify_canonical h.canonical hf).later.toAscends
  | reset => exact ⟨le_refl s.nextId, nofun⟩

/-- What a run does to the numbers. -/
theorem Onward.ascends (hst : Onward s t) (h : s.Reached) : t.Reached ∧ Ascends s t := by
  induction hst with
  | refl => exact ⟨h, .refl s⟩
  | tail _ hstep ih =>
    obtain ⟨hmid, hup⟩ := ih
    exact ⟨hmid.step hstep, hup.trans (hstep.ascends hmid)⟩

/-- What is interned in the run from `s` to `t` has a larger number than what was
    shared at any time before it. -/
theorem Onward.id_lt {r : Session α} (hr : r.Reached) (hrs : Onward r s) (hst : Onward s t)
    {f g : Formula α} (hf : f ∈ t.interned) (hnew : f ∉ s.interned) (hg : g ∈ r.interned) :
    g.id < f.id := by
  obtain ⟨hs, hup⟩ := hrs.ascends hr
  have hg : g.id < r.nextId := hr.canonical.id_lt g hg
  have hf : s.nextId ≤ f.id := ((hst.ascends hs).2.numbered f hf).resolve_left hnew
  have hle := hup.nextId_le
  omega

/-! ## §2. The invariant -/

/-- A shared release is no weak until. -/
theorem Canonical.release_ne (h : s.Canonical) {i k : Nat} {l a b : Formula α}
    (hf : .binary i .release l (.binary k .disj a b) ∈ s.interned) : a ≠ l ∧ b ≠ l := by
  have hresolved := (h.resolved hf).2.2 rfl
  constructor
  · intro heq
    exact hresolved (.inl (heq ▸ .refl a))
  · intro heq
    exact hresolved (.inr (heq ▸ .refl b))

/-- In every session that comes about, by whatever calls on shared formulas,
    simplifications and resets: numbers are distinct and below the next one;
    formulas with the same tree are identical; operands are shared and older;
    negation stands above shared propositions; the operands of conjunctions and
    disjunctions are ordered; no release is a weak until.  What is interned later,
    and in particular after a reset, has a larger number than all that was ever
    shared before. -/
theorem session_invariant (h : s.Reached) :
    s.interned.Pairwise (fun f g => f.id ≠ g.id)
      ∧ (∀ f ∈ s.interned, f.id < s.nextId)
      ∧ (∀ f ∈ s.interned, ∀ g ∈ s.interned, f.Alike g → f = g)
      ∧ (∀ f ∈ s.interned, ∀ g ∈ f.operands, g ∈ s.interned ∧ g.id < f.id)
      ∧ (∀ i k a, .negProp i k a ∈ s.interned → .prop k a ∈ s.interned)
      ∧ (∀ i op l r, op.isCommutative = true → .binary i op l r ∈ s.interned → l.id ≤ r.id)
      ∧ (∀ i k l a b, .binary i .release l (.binary k .disj a b) ∈ s.interned →
          a ≠ l ∧ b ≠ l)
      ∧ (∀ r, r.Reached → Onward r s → ∀ g ∈ r.interned,
          (∀ t, Onward s t → ∀ f ∈ t.interned, f ∉ s.interned → g.id < f.id)
            ∧ ∀ t, Onward s.reset t → ∀ f ∈ t.interned, g.id < f.id) := by
  have hs := h.canonical
  refine ⟨?_, hs.id_lt, ?_, ?_, ?_, ?_, ?_, ?_⟩
  · exact hs.newest_first.imp fun hlt => Nat.ne_of_gt hlt
  · intro f hf g hg hfg
    exact hs.eq_of_alike hf hg hfg
  · intro f hf g hg
    exact ⟨hs.operand_mem f hf g hg, hs.operand_lt f hf g hg⟩
  · intro i k a hf
    exact hs.prop_mem hf
  · intro i op l r hop hf
    exact (hs.shaped _ hf).1 hop
  · intro i k l a b hf
    exact hs.release_ne hf
  · intro r hr hrs g hg
    constructor
    · intro t hst f hf hnew
      exact hrs.id_lt hr hst hf hnew hg
    · intro t hst f hf
      -- right after the reset nothing is shared, so `f` is new
      exact Onward.id_lt hr (hrs.tail .reset) hst hf List.not_mem_nil hg

/-- A proposition that is built, forgotten and perhaps built again. -/
theorem session_invariant_reset :
    (Build.Call.run (.prop "a") ({} : Session String)).2.Reached
      ∧ ∀ t, Onward (Build.Call.run (.prop "a") ({} : Session String)).2.reset t →
          ∀ f ∈ t.interned, (Formula.prop 0 "a").id < f.id := by
  have hs : (Build.Call.run (.prop "a") ({} : Session String)).2.Reached :=
    .call (.prop "a") .start nofun
  obtain ⟨-, -, -, -, -, -, -, hnumbers⟩ := session_invariant hs
  exact ⟨hs, (hnumbers _ hs .refl (.prop 0 "a") List.mem_cons_self).2⟩

end Session
end LinearTime
