/-
  LinearTime.Proofs.Numbering — a number is given to one formula only.

  A reset forgets the formulas that a session shares, but whoever holds one can
  go on working with it: negate it, build over it, simplify it.  Equal formulas
  are no longer identical then, yet numbers still tell formulas apart, those
  that are shared and those that were forgotten:

      shared now  ++  forgotten     numbers are distinct, grow from operands
                                    upwards and lie below the next one

  Interning looks for the shape first, so no shape is ever shared twice, also not
  if formulas that were forgotten are built over.  So this is a discipline, too:
  jobs do nothing but add formulas.  In particular they leave the marks of the
  formulas as they are; only a simplification that is done sets one.

  Main results:
    * `intern_keeps_numbered` — one interning, over formulas shared or forgotten.
    * `Session.Numbered.discipline` — what all jobs keep.
-/

import LinearTime.Proofs.Histories

namespace LinearTime

variable {α : Type} [BEq α]

/-! ## §1. Formulas that exist -/

/-- Numbers tell apart the formulas that are shared and those that were forgotten,
    grow from operands upwards, and lie below the next free one.  No shape is shared
    twice. -/
structure Session.Numbered (forgotten : List (Formula α)) (s : Session α) : Prop where
  family : Formula.Family (s.interned ++ forgotten)
  id_lt : ∀ f ∈ s.interned ++ forgotten, f.id < s.nextId
  unrepeated : s.Unrepeated

theorem Session.numbered_start : ({} : Session α).Numbered [] :=
  ⟨⟨fun _ hf => absurd hf List.not_mem_nil, nofun, nofun⟩, nofun, .nil⟩

variable {s : Session α} {forgotten : List (Formula α)} {f g : Formula α}

namespace Session.Numbered

/-- Numbers tell formulas apart. -/
theorem eq_of_id_eq (h : s.Numbered forgotten) (hf : f ∈ s.interned ++ forgotten)
    (hg : g ∈ s.interned ++ forgotten) (hid : f.id = g.id) : f = g :=
  h.family.eq_of_id_eq hf hg hid

/-- Resetting makes the shared formulas forgotten ones. -/
theorem reset (h : s.Numbered forgotten) : s.reset.Numbered (s.interned ++ forgotten) :=
  ⟨h.family, h.id_lt, .nil⟩

/-- Marks number nothing. -/
theorem markProduced (h : s.Numbered forgotten) (f : Formula α) (stamp : Nat) :
    (s.markProduced f stamp).Numbered forgotten :=
  ⟨h.family, h.id_lt, h.unrepeated⟩

end Session.Numbered

/-! ## §2. What jobs do -/

omit [BEq α] in
/-- No formula is lost, and no mark changes. -/
structure Session.Adds (forgotten : List (Formula α)) (s t : Session α) : Prop where
  keeps : ∀ f ∈ s.interned ++ forgotten, f ∈ t.interned ++ forgotten
  produced : t.produced = s.produced

/-- A new formula gets a number that no formula has, shared or forgotten. -/
theorem Build.intern_keeps_numbered {make : Nat → Formula α} (h : s.Numbered forgotten)
    (hid : ∀ n, (make n).id = n)
    (hoperands : ∀ g ∈ (make s.nextId).operands, g ∈ s.interned ++ forgotten) :
    (intern make s).2.Numbered forgotten ∧ s.Adds forgotten (intern make s).2
      ∧ (intern make s).1 ∈ (intern make s).2.interned ++ forgotten := by
  have hunrepeated := intern_unrepeated make h.unrepeated
  cases hfind : s.interned.find? (·.sameShape (make s.nextId)) with
  | some f =>
    rw [intern_of_find?_some hfind]
    have hf : f ∈ s.interned := List.mem_of_find?_eq_some hfind
    exact ⟨h, ⟨fun _ hf => hf, rfl⟩, List.mem_append_left forgotten hf⟩
  | none =>
    rw [intern_of_find?_none hfind] at hunrepeated ⊢
    -- also above the numbers of what was forgotten
    have hlt (f : Formula α) (hf : f ∈ s.interned ++ forgotten) : f.id < (make s.nextId).id :=
      (hid _).symm ▸ h.id_lt f hf
    refine ⟨⟨h.family.cons hlt hoperands, ?_, hunrepeated⟩,
      ⟨fun f hf => List.mem_cons_of_mem _ hf, rfl⟩, List.mem_cons_self⟩
    exact List.forall_mem_cons.2
      ⟨(hid _).symm ▸ Nat.lt_succ_self _, fun f hf => Nat.lt_succ_of_lt (h.id_lt f hf)⟩

/-- Numbered sessions, in which jobs build over whatever formulas there are. -/
instance Session.Numbered.discipline (forgotten : List (Formula α)) :
    Session.Discipline (Session.Numbered forgotten) where
  formulas s := s.interned ++ forgotten
  Later s t := s.Adds forgotten t
  later_refl _ := ⟨fun _ hf => hf, rfl⟩
  later_trans h h' := ⟨fun f hf => h'.keeps f (h.keeps f hf), h'.produced.trans h.produced⟩
  keeps h := h.keeps
  family h := h.family
  interns h hid hoperands _ := Build.intern_keeps_numbered h hid hoperands

end LinearTime
