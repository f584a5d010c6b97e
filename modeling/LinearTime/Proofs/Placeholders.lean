/-
  LinearTime.Proofs.Placeholders — which placeholders a match binds.

  The placeholders of a template are read off its distinct subformulas, which
  are told apart by their numbers.  Matching and filling walk through the tree
  instead.  For formulas of one family both see the same names, and on trees

      a match          binds what was bound before and the names of the pattern
      filling          fails only for want of a name of the template

  whatever was tried and rolled back on the way: bindings of an attempt that
  failed are in no result.

  Main results:
    * `Rule.mem_placeholders_iff` — the placeholders are the names in the tree.
    * `extend?_widens` — what a successful match binds.
    * `exists_fill` — when filling gives a formula.
-/

import LinearTime.Proofs.Obligations
import LinearTime.Proofs.Repetition

namespace LinearTime

variable {α : Type}

/-! ## §1. Names in a tree -/

/-- The atoms in the tree of a formula, from left to right, with repetitions. -/
def Formula.atoms : Formula α → List α
  | .tt _ | .ff _ => []
  | .prop _ a | .negProp _ _ a => [a]
  | .next _ f => f.atoms
  | .binary _ _ l r => l.atoms ++ r.atoms

namespace Formula

theorem mem_atoms_left {i : Nat} {op : BinaryOp} {l : Formula α} {a : α} (r : Formula α)
    (h : a ∈ l.atoms) : a ∈ (binary i op l r).atoms :=
  List.mem_append_left r.atoms h

theorem mem_atoms_right {i : Nat} {op : BinaryOp} {r : Formula α} {a : α} (l : Formula α)
    (h : a ∈ r.atoms) : a ∈ (binary i op l r).atoms :=
  List.mem_append_right l.atoms h

/-- The atoms of an operand are atoms of the formula. -/
theorem mem_atoms_of_operand {f g : Formula α} (hg : g ∈ f.operands) {a : α} (ha : a ∈ g.atoms) :
    a ∈ f.atoms := by
  cases f with
  | tt | ff | prop => exact absurd hg List.not_mem_nil
  | negProp | next =>
    obtain rfl := List.mem_singleton.1 hg
    exact ha
  | binary i op l r =>
    rcases List.mem_pair.1 hg with rfl | rfl
    · exact mem_atoms_left r ha
    · exact mem_atoms_right l ha

/-- The atom of a literal is an atom of it. -/
theorem mem_atoms_of_atom? {f : Formula α} {a : α} (h : f.atom? = some a) : a ∈ f.atoms := by
  cases f with
  | prop i b => exact List.mem_singleton.2 (Option.some.inj h).symm
  | _ => cases h

theorem atom_of_mem_foldl_meet {g : Formula α} {a : α} {fs met : List (Formula α)}
    (heach : ∀ f ∈ fs, ∀ met : List (Formula α), g ∈ f.meet met → g ∈ met ∨ a ∈ f.atoms)
    (hg : g ∈ fs.foldl (fun met f => f.meet met) met) : g ∈ met ∨ ∃ f ∈ fs, a ∈ f.atoms := by
  induction fs generalizing met with
  | nil => exact .inl hg
  | cons f fs ih =>
    obtain ⟨hfirst, heach⟩ := List.forall_mem_cons.1 heach
    rcases ih heach hg with hg | ⟨k, hk, hatom⟩
    · exact (hfirst met hg).imp_right fun hatom => ⟨f, List.mem_cons_self, hatom⟩
    · exact .inr ⟨k, List.mem_cons_of_mem _ hk, hatom⟩

/-- Walking through a formula meets no propositions but those in its tree. -/
theorem atom_of_mem_meet {f g : Formula α} {a : α} {met : List (Formula α)} (hg : g ∈ f.meet met)
    (ha : g.atom? = some a) : g ∈ met ∨ a ∈ f.atoms := by
  induction f using tableauOperands_induction generalizing met with
  | h f ih =>
    rw [meet_eq] at hg
    split at hg
    next => exact .inl hg
    next =>
      rcases atom_of_mem_foldl_meet (fun k hk met => ih k hk) hg with hg | ⟨k, hk, hatom⟩
      · rcases List.mem_cons.1 hg with rfl | hg
        · exact .inr (mem_atoms_of_atom? ha)
        · exact .inl hg
      · exact .inr (mem_atoms_of_operand (mem_tableauOperands.1 hk) hatom)

/-- What is closed under operands has the propositions of its members. -/
theorem exists_prop_of_mem_atoms {U : List (Formula α)}
    (hU : ∀ f ∈ U, ∀ g ∈ f.operands, g ∈ U) {f : Formula α} (hf : f ∈ U) {a : α}
    (ha : a ∈ f.atoms) : ∃ i, .prop i a ∈ U := by
  induction f with
  | tt | ff => exact absurd ha List.not_mem_nil
  | prop i b =>
    rw [List.mem_singleton.1 ha]
    exact ⟨i, hf⟩
  | negProp i k b =>
    rw [List.mem_singleton.1 ha]
    exact ⟨k, hU _ hf _ List.mem_cons_self⟩
  | next i f ih => exact ih (hU _ hf _ List.mem_cons_self) ha
  | binary i op l r ihl ihr =>
    rcases List.mem_append.1 ha with ha | ha
    · exact ihl (hU _ hf _ List.mem_cons_self) ha
    · exact ihr (hU _ hf _ (List.mem_cons_of_mem _ List.mem_cons_self)) ha

end Formula

/-- The placeholders of a template are names in its tree, wherever it is from. -/
theorem Rule.mem_atoms_of_mem_placeholders {p : Formula String} {name : String}
    (h : name ∈ placeholders p) : name ∈ p.atoms := by
  obtain ⟨g, hg, hname⟩ := List.mem_filterMap.1 h
  rcases Formula.atom_of_mem_meet (List.mem_reverse.1 hg) hname with hg | hatom
  · exact absurd hg List.not_mem_nil
  · exact hatom

/-- In a family they are all the names in its tree. -/
theorem Rule.mem_placeholders_iff {U : List (Formula String)} (hU : Formula.Family U)
    {p : Formula String} (hp : p ∈ U) {name : String} :
    name ∈ placeholders p ↔ name ∈ p.atoms := by
  refine ⟨mem_atoms_of_mem_placeholders, fun h => ?_⟩
  obtain ⟨i, hi⟩ := Formula.exists_prop_of_mem_atoms (hU.subformulas hp).operand_mem
    (Formula.self_mem_subformulas hU hp) h
  exact List.mem_filterMap.2 ⟨.prop i name, hi, rfl⟩

/-! ## §2. What a match binds -/

namespace Bindings

variable {b c d : Bindings α} {p q : Formula String} {f : Formula α} {name : String}

/-- The bindings stay, the names are bound, and nothing else is. -/
structure Widens (names : List String) (b c : Bindings α) : Prop where
  extends_ : Extends b c
  binds : ∀ name ∈ names, ∃ f, c.lookup name = some f
  within : ∀ name f, c.lookup name = some f → b.lookup name = some f ∨ name ∈ names

theorem Widens.refl (b : Bindings α) : Widens [] b b :=
  ⟨.refl b, nofun, fun _ _ h => .inl h⟩

/-- One after the other, in whatever order the names are listed. -/
theorem Widens.trans {ns ms both : List String} (h : Widens ns b c) (h' : Widens ms c d)
    (hboth : ∀ name, name ∈ both ↔ name ∈ ns ∨ name ∈ ms) : Widens both b d := by
  refine ⟨h.extends_.trans h'.extends_, ?_, ?_⟩
  · intro name hname
    rcases (hboth name).1 hname with hname | hname
    · obtain ⟨f, hf⟩ := h.binds name hname
      exact ⟨f, h'.extends_ name f hf⟩
    · exact h'.binds name hname
  · intro name f hf
    rcases h'.within name f hf with hf | hname
    · exact (h.within name f hf).imp_right fun hname => (hboth name).2 (.inl hname)
    · exact .inr ((hboth name).2 (.inr hname))

/-- Binding a name binds at most this name. -/
theorem assign?_widens (hc : b.assign? name f = some c) : Widens [name] b c := by
  unfold assign? at hc
  split at hc
  next g hg =>
    split at hc
    next =>
      obtain rfl := Option.some.inj hc
      refine ⟨.refl b, ?_, fun _ _ h => .inl h⟩
      intro other hother
      rw [List.mem_singleton.1 hother]
      exact ⟨g, hg⟩
    next => cases hc
  -- the name is new, so no binding is lost
  next hnone =>
    obtain rfl := Option.some.inj hc
    refine ⟨?_, ?_, ?_⟩
    · intro other g hg
      rw [List.lookup_cons]
      split
      next heq =>
        rw [beq_iff_eq.1 heq, hnone] at hg
        cases hg
      next => exact hg
    · intro other hother
      rw [List.mem_singleton.1 hother]
      exact ⟨f, List.lookup_cons_self⟩
    · intro other g hg
      rw [List.lookup_cons] at hg
      split at hg
      next heq => exact .inr (List.mem_singleton.2 (beq_iff_eq.1 heq))
      next => exact .inl hg

/-- A successful match binds the names of the pattern besides those that were bound
    before, whatever is matched. -/
theorem extend?_widens (hc : extend? p f b = some c) : Widens p.atoms b c := by
  replace hc := extend?_extended hc
  induction hc with
  | prop h => exact assign?_widens h
  | tt | ff => exact .refl _
  | negProp _ _ h => exact assign?_widens h
  | next _ _ _ ih => exact ih
  | straight _ _ _ _ _ ihp ihq => exact ihp.trans ihq fun _ => List.mem_append
  | backward _ _ _ _ _ ihq ihp => exact ihq.trans ihp fun _ => List.mem_append.trans or_comm
  | crossed _ _ _ _ _ ihq ihp => exact ihq.trans ihp fun _ => List.mem_append.trans or_comm

/-! ## §3. Filling -/

variable [BEq α]

/-- A template of which all names are bound is filled to a formula, in every
    session. -/
theorem exists_fill (h : ∀ name ∈ q.atoms, ∃ f, b.lookup name = some f) (s : Session α) :
    ∃ g t, (b.fill q).run s = (some g, t) := by
  induction q generalizing s with
  | prop i name =>
    obtain ⟨f, hf⟩ := h name List.mem_cons_self
    refine ⟨f, s, ?_⟩
    show (b.lookup name, s) = _
    rw [hf]
  | tt i => exact ⟨_, _, Build.option_lift_run rfl⟩
  | ff i => exact ⟨_, _, Build.option_lift_run rfl⟩
  -- The name is looked up before the negation is built.
  | negProp i k name =>
    obtain ⟨f, hf⟩ := h name List.mem_cons_self
    have hbound : (OptionT.mk (pure (b.lookup name)) : OptionT (Build α) (Formula α)).run s
        = (some f, s) := by
      show (b.lookup name, s) = _
      rw [hf]
    unfold fill
    rw [Build.option_bind_run hbound]
    exact ⟨_, _, Build.option_lift_run rfl⟩
  | next i q ih =>
    obtain ⟨f, t, hrun⟩ := ih h s
    unfold fill
    rw [Build.option_bind_run hrun]
    exact ⟨_, _, Build.option_lift_run rfl⟩
  | binary i op p q ihp ihq =>
    obtain ⟨f, t, hp⟩ := ihp (fun name hname => h name (Formula.mem_atoms_left q hname)) s
    obtain ⟨g, u, hq⟩ := ihq (fun name hname => h name (Formula.mem_atoms_right p hname)) t
    unfold fill
    rw [Build.option_bind_run hp, Build.option_bind_run hq]
    exact ⟨_, _, Build.option_lift_run rfl⟩

end Bindings
end LinearTime
