/-
  LinearTime.Proofs.Instances — a match tells how to build what was matched.

  Filling the pattern with the bindings that a match found goes through the same
  constructors that made the formula.  They order operands, push negations
  inwards and turn some releases into weak untils.  But the formula is shared, so
  it has been through all this: each constructor finds the part of the formula
  that stands for its part of the pattern,

      straight operands    in the order in which they are shared
      crossed operands     exchanged, and then put back in order

  and in the end the formula itself.  Nothing new is built.

  Main results:
    * `Matches.binds` — a match binds all placeholders.
    * `Matches.run_fill` — filling the pattern gives the matched formula.
    * `match_reproduces_formula` — so it is for every match in a session.
-/

import LinearTime.Proofs.Histories
import LinearTime.Proofs.Placeholders

namespace LinearTime
namespace Bindings

variable {α : Type} {b c : Bindings α} {p q : Formula String} {f : Formula α}

/-! ## §1. Placeholders -/

/-- A match binds the names in the tree of the pattern. -/
theorem Matches.binds_atoms (hmatch : Matches b p f) :
    ∀ name ∈ p.atoms, ∃ g, b.lookup name = some g := by
  induction hmatch with
  | tt | ff => exact fun _ hname => absurd hname List.not_mem_nil
  | prop hlookup =>
    intro name hname
    rw [List.mem_singleton.1 hname]
    exact ⟨_, hlookup⟩
  | negProp _ _ hlookup =>
    intro name hname
    rw [List.mem_singleton.1 hname]
    exact ⟨_, hlookup⟩
  | next _ _ _ ih => exact ih
  | straight _ _ _ _ _ ihp ihq => exact List.forall_mem_append.2 ⟨ihp, ihq⟩
  | crossed _ _ _ _ _ ihq ihp => exact List.forall_mem_append.2 ⟨ihp, ihq⟩

/-- A match binds all placeholders of the pattern. -/
theorem Matches.binds (h : Matches b p f) :
    ∀ name ∈ Rule.placeholders p, ∃ g, b.lookup name = some g :=
  fun name hname => h.binds_atoms name (Rule.mem_atoms_of_mem_placeholders hname)

/-! ## §2. Filling the pattern -/

variable {s t : Session α}

variable [BEq α] {s : Session α}

/-- Filling an operator whose operands are filled to `f` and `g` and change nothing. -/
theorem run_fill_binary [EquivBEq α] (h : s.Canonical) {i : Nat} {op : BinaryOp}
    {f g k : Formula α} (hp : (b.fill p).run s = (some f, s)) (hq : (b.fill q).run s = (some g, s))
    (made : Formula.Made op f g k) (hk : k ∈ s.interned) :
    (b.fill (.binary i op p q)).run s = (some k, s) := by
  have hbinary : Build.binary op f g s = (k, s) := made.again h hk
  unfold fill
  rw [Build.option_bind_run hp, Build.option_bind_run hq]
  exact Build.option_lift_run hbinary

/-- Filling the pattern gives the matched formula and builds nothing. -/
theorem Matches.run_fill [EquivBEq α] (hmatch : Matches b p f) (h : s.Canonical)
    (hf : f ∈ s.interned) : (b.fill p).run s = (some f, s) := by
  induction hmatch with
  | @prop id name f hlookup =>
    show (b.lookup name, s) = (some f, s)
    rw [hlookup]
  | tt i j => exact Build.option_lift_run (Build.tt_again h hf)
  | ff i j => exact Build.option_lift_run (Build.ff_again h hf)
  | @negProp i k name j propId a hlookup =>
    -- the placeholder is bound to a proposition, whose negation exists already
    have hbound : (OptionT.mk (pure (b.lookup name)) : OptionT (Build α) (Formula α)).run s
        = (some (.prop propId a), s) := by
      show (b.lookup name, s) = _
      rw [hlookup]
    have hnot : Build.not (.prop propId a) s = (.negProp j propId a, s) := Build.negProp_again h hf
    unfold fill
    rw [Build.option_bind_run hbound]
    exact Build.option_lift_run hnot
  | @next i j p f _ ih =>
    have hnext : Build.next f s = (.next j f, s) := Build.next_again h hf
    unfold fill
    rw [Build.option_bind_run (ih (h.next_mem hf))]
    exact Build.option_lift_run hnext
  -- operands that were matched crosswise are put back in order when filled
  | straight i j op _ _ ihp ihq =>
    exact run_fill_binary h (ihp (h.left_mem hf)) (ihq (h.right_mem hf)) (.plain j op _ _) hf
  | crossed i j hop _ _ ihq ihp =>
    exact run_fill_binary h (ihp (h.right_mem hf)) (ihq (h.left_mem hf)) (.swapped j _ _ hop) hf

/-! ## §3. Matches in a session -/

/-- Let a formula of a session match a pattern, some placeholders being bound to
    formulas of the session before.  Then these stay bound to the same, all
    placeholders of the pattern are bound to formulas of the session, and filling the
    pattern gives the very formula that was matched and leaves the session as it
    is. -/
theorem match_reproduces_formula [EquivBEq α] (hs : s.Reached) (hb : b.Within s) (hf : f ∈ s.interned)
    (hc : extend? p f b = some c) :
    Extends b c
      ∧ (∀ name ∈ Rule.placeholders p, ∃ g ∈ s.interned, c.lookup name = some g)
      ∧ (c.fill p).run s = (some f, s) := by
  have hfound : Found s.interned b c p f := extend?_matches hs.canonical.family hb hf hc
  refine ⟨hfound.extends_, ?_, hfound.matches_.run_fill hs.canonical hf⟩
  intro name hname
  obtain ⟨g, hg⟩ := hfound.matches_.binds name hname
  exact ⟨g, hfound.within name g hg, hg⟩

/-- The pattern `q \/ (p /\ q)` against `a \/ (a /\ b)`, with `q` bound to `a`.  The
    conjunctions only match crosswise, and filling them has to put `b` and `a` back in
    order. -/
theorem match_reproduces_formula_crossed :
    let pattern : Formula String :=
      .binary 3 .disj (.prop 1 "q") (.binary 2 .conj (.prop 0 "p") (.prop 1 "q"))
    let e : Expression String := .binary .disj (.binary .conj (.prop "a") (.prop "b")) (.prop "a")
    let c : Bindings String := [("p", .prop 1 "b"), ("q", .prop 0 "a")]
    extend? pattern (e.build {}).1 [("q", .prop 0 "a")] = some c
      ∧ (c.fill pattern).run (e.build {}).2 = (some (e.build {}).1, (e.build {}).2) := by
  intro pattern e c
  have hs : (e.build {}).2.Reached := Session.Reached.start.build e
  have hf : (e.build {}).1 ∈ (e.build {}).2.interned := Session.Reached.start.built_mem e
  have hb : Within [("q", .prop 0 "a")] (e.build {}).2 := by
    intro name g hlookup
    rw [List.lookup_cons] at hlookup
    split at hlookup
    · obtain rfl := Option.some.inj hlookup
      exact .tail _ (.tail _ (.tail _ (.head _)))
    · cases hlookup
  have hc : extend? pattern (e.build {}).1 [("q", .prop 0 "a")] = some c := rfl
  exact ⟨hc, (match_reproduces_formula hs hb hf hc).2.2⟩

end Bindings
end LinearTime
