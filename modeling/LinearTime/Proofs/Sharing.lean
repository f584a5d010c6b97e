/-
  LinearTime.Proofs.Sharing — the formulas of a session are canonical.

  A session is *canonical* if its formulas have ascending numbers, operands are
  shared before what is built over them, equal shapes are shared, operands of
  conjunctions and disjunctions are ordered, and no release has the shape of a
  weak until.  Interning over shared formulas keeps this, so it is a discipline
  (`LinearTime.Proofs.Jobs`) and every job keeps it.

  Main results:
    * `Session.Canonical.coherent` — numbers tell the parts of a formula apart.
    * `Session.Canonical.cons`, `intern_keeps_canonical` — one interning.
    * `Made.holds`, `Negates.holds` — what the results of constructors mean.
    * `Expression.build_leads`, `Built.holds` — what is built from an expression, and
      what it means.
-/

import LinearTime.Proofs.Jobs
import LinearTime.Proofs.Semantics

namespace LinearTime

variable {α : Type}

/-! ## §1. Canonical sessions -/

/-- What holds of every session that was only changed by constructors. -/
structure Session.Canonical [BEq α] (s : Session α) : Prop where
  newest_first : s.interned.Pairwise fun f g => g.id < f.id
  id_lt : ∀ f ∈ s.interned, f.id < s.nextId
  operand_mem : ∀ f ∈ s.interned, ∀ g ∈ f.operands, g ∈ s.interned
  operand_lt : ∀ f ∈ s.interned, ∀ g ∈ f.operands, g.id < f.id
  shared : ∀ f ∈ s.interned, ∀ g ∈ s.interned, f.sameShape g = true → f = g
  shaped : ∀ f ∈ s.interned, f.WellShaped

namespace Session.Canonical

variable [BEq α] {s : Session α}

/-- Numbers tell the formulas of a session apart. -/
theorem eq_of_id_eq (h : s.Canonical) {f g : Formula α} (hf : f ∈ s.interned)
    (hg : g ∈ s.interned) (hid : f.id = g.id) : f = g := by
  by_contra hne
  have hpair := h.newest_first.imp (S := fun f g => f.id ≠ g.id) fun hlt heq => by omega
  have : Std.Symm fun f g : Formula α => f.id ≠ g.id := ⟨fun _ _ hne => hne.symm⟩
  exact hpair.forall hf hg hne hid

/-- The shared formulas are a family. -/
theorem family (h : s.Canonical) : Formula.Family s.interned :=
  ⟨fun _ hf _ hg hid => h.eq_of_id_eq hf hg hid, h.operand_mem, h.operand_lt⟩

theorem prop_mem (h : s.Canonical) {i k : Nat} {a : α} (hf : .negProp i k a ∈ s.interned) :
    .prop k a ∈ s.interned := h.family.prop_mem hf

theorem next_mem (h : s.Canonical) {i : Nat} {f : Formula α} (hf : .next i f ∈ s.interned) :
    f ∈ s.interned := h.family.next_mem hf

theorem left_mem (h : s.Canonical) {i : Nat} {op : BinaryOp} {l r : Formula α}
    (hf : .binary i op l r ∈ s.interned) : l ∈ s.interned := h.family.left_mem hf

theorem right_mem (h : s.Canonical) {i : Nat} {op : BinaryOp} {l r : Formula α}
    (hf : .binary i op l r ∈ s.interned) : r ∈ s.interned := h.family.right_mem hf

/-- Operands that may be exchanged, and are in order both ways, are one formula. -/
theorem left_eq_right (h : s.Canonical) {i : Nat} {op : BinaryOp} {l r : Formula α}
    (hop : op.isCommutative = true) (hf : .binary i op l r ∈ s.interned)
    (hge : r.id ≤ l.id) : l = r := by
  have hle : l.id ≤ r.id := (h.shaped _ hf).1 hop
  exact h.eq_of_id_eq (h.left_mem hf) (h.right_mem hf) (Nat.le_antisymm hle hge)

/-- An operator over given operands is shared once. -/
theorem binary_eq (h : s.Canonical) {i j : Nat} {op : BinaryOp} {l r : Formula α}
    (hf : .binary i op l r ∈ s.interned) (hg : .binary j op l r ∈ s.interned) :
    Formula.binary i op l r = .binary j op l r := by
  apply h.shared _ hf _ hg
  simp [Formula.sameShape, Formula.same]

/-- It is shared once also if its operands may be exchanged. -/
theorem binary_eq_crossed (h : s.Canonical) {i j : Nat} {op : BinaryOp} {l r : Formula α}
    (hop : op.isCommutative = true) (hf : .binary i op l r ∈ s.interned)
    (hg : .binary j op r l ∈ s.interned) :
    Formula.binary i op l r = .binary j op r l := by
  have hge : r.id ≤ l.id := (h.shaped _ hg).1 hop
  have hlr : l = r := h.left_eq_right hop hf hge
  subst hlr
  exact h.binary_eq hf hg

/-- Numbers tell the parts of a formula apart. -/
theorem coherent (h : s.Canonical) {f : Formula α} (hf : f ∈ s.interned) : f.Coherent :=
  h.family.coherent hf

end Session.Canonical

/-- A session without formulas is canonical, whatever its next number is. -/
theorem Session.canonical_of_interned_nil [BEq α] {s : Session α} (h : s.interned = []) :
    s.Canonical := by
  refine ⟨?_, ?_, ?_, ?_, ?_, ?_⟩
  · rw [h]
    exact List.Pairwise.nil
  all_goals
    intro f hf
    rw [h] at hf
    exact absurd hf List.not_mem_nil

/-- Numbers that were given out are not free again, and what is new has a number
    that was free. -/
structure Session.Ascends (s t : Session α) : Prop where
  nextId_le : s.nextId ≤ t.nextId
  numbered : ∀ f ∈ t.interned, f ∈ s.interned ∨ s.nextId ≤ f.id

theorem Session.Ascends.refl (s : Session α) : s.Ascends s :=
  ⟨le_refl s.nextId, fun _ hf => .inl hf⟩

/-- Sessions keep ascending from one to the next. -/
theorem Session.Ascends.trans {s t u : Session α} (hst : s.Ascends t) (htu : t.Ascends u) :
    s.Ascends u := by
  refine ⟨le_trans hst.nextId_le htu.nextId_le, ?_⟩
  intro f hf
  cases htu.numbered f hf with
  | inl hft => exact hst.numbered f hft
  | inr hle => exact .inr (le_trans hst.nextId_le hle)

/-- Without a reset, nothing shared is lost, either. -/
structure Session.Grows (s t : Session α) : Prop extends Session.Ascends s t where
  keeps : ∀ f ∈ s.interned, f ∈ t.interned

theorem Session.Grows.refl (s : Session α) : s.Grows s := ⟨.refl s, fun _ hf => hf⟩

/-- A session that grew twice has grown. -/
theorem Session.Grows.trans {s t u : Session α} (hst : s.Grows t) (htu : t.Grows u) :
    s.Grows u :=
  ⟨hst.toAscends.trans htu.toAscends, fun f hf => htu.keeps f (hst.keeps f hf)⟩

/-! ## §2. Interning -/

/-- A formula has its own shape. -/
theorem Formula.sameShape_self [BEq α] [EquivBEq α] (f : Formula α) : f.sameShape f = true := by
  cases f <;> simp [sameShape, same]

theorem Formula.sameShape_comm [BEq α] [EquivBEq α] (f g : Formula α) :
    f.sameShape g = g.sameShape f := by
  have hsame (a b : Formula α) : a.same b = b.same a := by
    rw [Bool.eq_iff_iff, same_iff, same_iff]
    exact eq_comm
  cases f <;> cases g <;> try rfl
  · exact BEq.comm
  · exact BEq.comm
  · exact hsame _ _
  next op l r _ op' l' r' =>
    show (op == op' && l.same l' && r.same r') = (op' == op && l'.same l && r'.same r)
    rw [BEq.comm, hsame l, hsame r]

theorem Formula.sameShape_trans [BEq α] [EquivBEq α] {f g h : Formula α}
    (hfg : f.sameShape g = true) (hgh : g.sameShape h = true) : f.sameShape h = true := by
  cases f <;> cases g <;> try cases hfg
  all_goals cases h <;> try cases hgh
  · rfl
  · rfl
  · exact BEq.trans hfg hgh
  · exact BEq.trans hfg hgh
  · exact BEq.trans hfg hgh
  · simp only [sameShape, Bool.and_eq_true, beq_iff_eq, same_iff] at hfg hgh ⊢
    exact ⟨⟨hfg.1.1.trans hgh.1.1, hfg.1.2.trans hgh.1.2⟩, hfg.2.trans hgh.2⟩

/-- No shape is shared twice: an older formula, which stands further back, has not
    the shape of a newer one. -/
def Session.Unrepeated [BEq α] (s : Session α) : Prop :=
  s.interned.Pairwise fun newer older => older.sameShape newer = false

/-- What is shared under one shape is one formula. -/
theorem Session.Unrepeated.eq_of_sameShape [BEq α] [EquivBEq α] {s : Session α}
    (h : s.Unrepeated) {f g : Formula α} (hf : f ∈ s.interned) (hg : g ∈ s.interned)
    (hfg : f.sameShape g = true) : f = g := by
  by_contra hne
  have : Std.Symm fun newer older : Formula α => older.sameShape newer = false :=
    ⟨fun newer older hdiff => (Formula.sameShape_comm newer older).trans hdiff⟩
  have hdiff : f.sameShape g = false := List.Pairwise.forall h hg hf (Ne.symm hne)
  rw [hdiff] at hfg
  cases hfg

/-- A canonical session shares no shape twice. -/
theorem Session.Canonical.unrepeated [BEq α] {s : Session α} (h : s.Canonical) :
    s.Unrepeated := by
  refine h.newest_first.imp_of_mem ?_
  intro newer older hnewer holder hlt
  rw [Bool.eq_false_iff]
  intro hshape
  rw [h.shared older holder newer hnewer hshape] at hlt
  exact lt_irrefl _ hlt

/-- A session with one more formula, of a shape that nothing shared has. -/
theorem Session.Canonical.cons [BEq α] [EquivBEq α] {s : Session α} (h : s.Canonical)
    {f : Formula α} (hid : f.id = s.nextId) (hoperands : ∀ g ∈ f.operands, g ∈ s.interned)
    (hshaped : f.WellShaped) (hnew : ∀ g ∈ s.interned, g.sameShape f = false) :
    ({ s with interned := f :: s.interned, nextId := s.nextId + 1 } : Session α).Canonical where
  newest_first := List.pairwise_cons.2 ⟨fun g hg => hid ▸ h.id_lt g hg, h.newest_first⟩
  id_lt := List.forall_mem_cons.2
    ⟨hid ▸ Nat.lt_succ_self _, fun g hg => Nat.lt_succ_of_lt (h.id_lt g hg)⟩
  operand_mem := List.forall_mem_cons.2
    ⟨fun k hk => List.mem_cons_of_mem _ (hoperands k hk),
      fun g hg k hk => List.mem_cons_of_mem _ (h.operand_mem g hg k hk)⟩
  operand_lt := List.forall_mem_cons.2 ⟨fun k hk => hid ▸ h.id_lt k (hoperands k hk), h.operand_lt⟩
  shared := by
    intro g hg k hk hgk
    -- nothing that is there has the shape of `f`
    rcases List.mem_cons.1 hg with hgf | hgs <;> rcases List.mem_cons.1 hk with hkf | hks
    · rw [hgf, hkf]
    · rw [hgf, Formula.sameShape_comm, hnew k hks] at hgk
      cases hgk
    · rw [hkf, hnew g hgs] at hgk
      cases hgk
    · exact h.shared g hgs k hks hgk
  shaped := List.forall_mem_cons.2 ⟨hshaped, h.shaped⟩

namespace Build

variable [BEq α] {s : Session α}

/-- What is interned anew has a shape that nothing shared had. -/
theorem intern_unrepeated (make : Nat → Formula α) (h : s.Unrepeated) :
    (intern make s).2.Unrepeated := by
  cases hfind : s.interned.find? (·.sameShape (make s.nextId)) with
  | some f =>
    rw [intern_of_find?_some hfind]
    exact h
  | none =>
    rw [intern_of_find?_none hfind]
    refine List.pairwise_cons.2 ⟨?_, h⟩
    intro f hf
    simpa using List.find?_eq_none.1 hfind f hf

variable [EquivBEq α]

/-- Interning finds a shared formula of the shape that is asked for, whatever number
    the new formula would have. -/
theorem intern_again {make : Nat → Formula α}
    (hshared : ∀ f ∈ s.interned, ∀ g ∈ s.interned, f.sameShape g = true → f = g) {f : Formula α}
    (hf : f ∈ s.interned) (hshape : f.sameShape (make s.nextId) = true) :
    intern make s = (f, s) := by
  cases hfind : s.interned.find? (·.sameShape (make s.nextId)) with
  | some g =>
    -- whoever is found has the shape of `f`, and shapes are shared
    have hg : g ∈ s.interned := List.mem_of_find?_eq_some hfind
    have hgshape : g.sameShape (make s.nextId) = true := by simpa using List.find?_some hfind
    rw [Formula.sameShape_comm] at hshape
    rw [intern_of_find?_some hfind,
      hshared g hg f hf (Formula.sameShape_trans hgshape hshape)]
  | none => exact absurd hshape (List.find?_eq_none.1 hfind f hf)

/-- Interning over shared formulas keeps a session canonical. -/
theorem intern_keeps_canonical {make : Nat → Formula α} (h : s.Canonical)
    (hid : ∀ n, (make n).id = n) (hoperands : ∀ g ∈ (make s.nextId).operands, g ∈ s.interned)
    (hshaped : (make s.nextId).WellShaped) :
    (intern make s).2.Canonical ∧ s.Grows (intern make s).2
      ∧ (intern make s).1 ∈ (intern make s).2.interned := by
  cases hfind : s.interned.find? (·.sameShape (make s.nextId)) with
  | some f =>
    rw [intern_of_find?_some hfind]
    exact ⟨h, .refl s, List.mem_of_find?_eq_some hfind⟩
  | none =>
    -- the search went through all formulas
    have hnew (f : Formula α) (hf : f ∈ s.interned) : f.sameShape (make s.nextId) = false := by
      simpa using List.find?_eq_none.1 hfind f hf
    rw [intern_of_find?_none hfind]
    refine ⟨h.cons (hid _) hoperands hshaped hnew, ?_, List.mem_cons_self⟩
    exact {
      nextId_le := Nat.le_succ _
      numbered := List.forall_mem_cons.2 ⟨.inr (hid _).ge, fun f hf => .inl hf⟩
      keeps := fun f hf => List.mem_cons_of_mem _ hf }

end Build

/-- Canonical sessions, in which jobs build over what is shared. -/
instance Session.Canonical.discipline [BEq α] [EquivBEq α] :
    Session.Discipline (Session.Canonical (α := α)) where
  formulas s := s.interned
  Later s t := s.Grows t
  later_refl := .refl
  later_trans h h' := h.trans h'
  keeps h := h.keeps
  family h := h.family
  interns h hid hoperands hshaped := Build.intern_keeps_canonical h hid hoperands hshaped

/-! ## §3. Meaning -/

/-- The formula made of two operands means what the operator makes of their meanings. -/
theorem Formula.Made.holds {op : BinaryOp} {l r g : Formula α} (h : Made op l r g)
    (v : Nat → α → Prop) (i : Nat) : g.Holds v i ↔ op.Holds (l.Holds v) (r.Holds v) i := by
  cases h with
  | plain => exact Iff.rfl
  | swapped id _ _ h =>
    cases op with
    | conj => exact And.comm
    | disj => exact Or.comm
    | strongUntil | release | weakUntil => cases h
  | weak id k y l => exact weakUntil_iff_release
  | weakSwapped id k y l =>
    -- the disjunction with its operands the other way round
    have hcomm : (Formula.binary k .disj l y).Holds v = fun j => y.Holds v j ∨ l.Holds v j :=
      funext fun j => propext Or.comm
    show WeakUntil _ _ i ↔ Release _ ((Formula.binary k .disj l y).Holds v) i
    rw [hcomm]
    exact weakUntil_iff_release

/-- The negation is true where the formula is not. -/
theorem Formula.Negates.holds {f g : Formula α} (h : Negates f g) (v : Nat → α → Prop)
    (i : Nat) : g.Holds v i ↔ ¬ f.Holds v i := by
  induction h generalizing i with
  | tt => simp [Holds]
  | ff => simp [Holds]
  | prop => exact Iff.rfl
  | negProp => exact not_not.symm
  | next _ _ _ ih => exact ih (i + 1)
  | @dual _ op l r l' r' g hop hl hr made ihl ihr =>
    rw [made.holds, op.dual.holds_congr ihl ihr]
    show _ ↔ ¬ op.Holds (l.Holds v) (r.Holds v) i
    -- De Morgan, and its counterparts for the operators of time.
    cases op with
    | conj => exact not_and_or.symm
    | disj => exact not_or.symm
    | strongUntil => exact not_until.symm
    | release => exact not_release.symm
    | weakUntil => exact absurd rfl hop
  | @weak _ l r l' r' c g hl hr both made ihl ihr =>
    have hboth (k : Nat) : c.Holds v k ↔ ¬ l.Holds v k ∧ ¬ r.Holds v k := by
      rw [both.holds]
      exact and_congr (ihl k) (ihr k)
    rw [made.holds, BinaryOp.holds_congr _ ihr hboth]
    exact not_weakUntil.symm

/-! ## §4. Expressions -/

/-- Textbook truth of a written formula. -/
def Expression.Holds (v : Nat → α → Prop) : Expression α → Nat → Prop
  | .tt, _ => True
  | .ff, _ => False
  | .prop a, i => v i a
  | .not f, i => ¬ f.Holds v i
  | .next f, i => f.Holds v (i + 1)
  | .always f, i => ∀ j, i ≤ j → f.Holds v j
  | .eventually f, i => ∃ j, i ≤ j ∧ f.Holds v j
  | .binary op l r, i => op.Holds (l.Holds v) (r.Holds v) i
  | .implies l r, i => l.Holds v i → r.Holds v i

/-- A word that does not tell equal atoms apart. -/
def Respects [BEq α] (v : Nat → α → Prop) : Prop :=
  ∀ n a b, (a == b) = true → (v n a ↔ v n b)

/-- What nothing releases holds always. -/
theorem release_false_iff {P : Nat → Prop} {i : Nat} :
    Release (fun _ => False) P i ↔ ∀ j, i ≤ j → P j := by
  unfold Release
  simp

/-- Until, without a condition on the way, is eventually. -/
theorem until_true_iff {P : Nat → Prop} {i : Nat} :
    Until (fun _ => True) P i ↔ ∃ j, i ≤ j ∧ P j := by
  unfold Until
  simp

/-- The formula is built from the expression by the constructors, operands
    first. -/
inductive Expression.Built [BEq α] : Expression α → Formula α → Prop
  | tt (id : Nat) : Built .tt (.tt id)
  | ff (id : Nat) : Built .ff (.ff id)
  | prop (id : Nat) {a b : α} (h : (b == a) = true) : Built (.prop a) (.prop id b)
  | not {e : Expression α} {f g : Formula α} (h : Built e f) (neg : Formula.Negates f g) :
    Built (.not e) g
  | next (id : Nat) {e : Expression α} {f : Formula α} (h : Built e f) :
    Built (.next e) (.next id f)
  | always (id : Nat) {e : Expression α} {f g : Formula α} (h : Built e f)
    (made : Formula.Made .release (.ff id) f g) : Built (.always e) g
  | eventually (id : Nat) {e : Expression α} {f g : Formula α} (h : Built e f)
    (made : Formula.Made .strongUntil (.tt id) f g) : Built (.eventually e) g
  | binary {op : BinaryOp} {e e' : Expression α} {f f' g : Formula α} (h : Built e f)
    (h' : Built e' f') (made : Formula.Made op f f' g) : Built (.binary op e e') g
  | implies {e e' : Expression α} {f f' n g : Formula α} (h : Built e f) (h' : Built e' f')
    (neg : Formula.Negates f n) (made : Formula.Made .disj n f' g) : Built (.implies e e') g

namespace Expression

variable [BEq α]

/-- What is built from an expression means what the expression means. -/
theorem Built.holds {e : Expression α} {f : Formula α} (h : e.Built f) {v : Nat → α → Prop}
    (hv : Respects v) (i : Nat) : f.Holds v i ↔ e.Holds v i := by
  induction h generalizing i with
  | tt | ff => exact Iff.rfl
  | prop _ h => exact hv i _ _ h
  | not _ neg ih => exact (neg.holds v i).trans (not_congr (ih i))
  | next _ _ ih => exact ih (i + 1)
  -- a release by what never holds
  | always _ _ made ih =>
    rw [made.holds, BinaryOp.holds_congr _ (fun _ => Iff.rfl) ih]
    exact release_false_iff
  -- an until after what always holds
  | eventually _ _ made ih =>
    rw [made.holds, BinaryOp.holds_congr _ (fun _ => Iff.rfl) ih]
    exact until_true_iff
  | binary _ _ made ih ih' => exact (made.holds v i).trans (BinaryOp.holds_congr _ ih ih')
  | @implies e e' f f' n g _ _ neg made ih ih' =>
    rw [made.holds]
    show n.Holds v i ∨ f'.Holds v i ↔ (e.Holds v i → e'.Holds v i)
    rw [neg.holds, ih, ih', imp_iff_not_or]

/-- Whatever the discipline is, what is built from an expression is known. -/
theorem build_leads [EquivBEq α] {Sound : Session α → Prop} [Session.Discipline Sound]
    {s : Session α} (h : Sound s) (e : Expression α) :
    Build.Leads Sound e.build s fun f t => f ∈ t.known Sound ∧ e.Built f := by
  induction e generalizing s with
  | tt =>
    refine (Build.tt_leads h).mono ?_
    rintro f t - ⟨hf, id, rfl⟩
    exact ⟨hf, .tt id⟩
  | ff =>
    refine (Build.ff_leads h).mono ?_
    rintro f t - ⟨hf, id, rfl⟩
    exact ⟨hf, .ff id⟩
  | prop a =>
    refine (Build.prop_leads h a).mono ?_
    rintro f t - ⟨hf, id, b, rfl, rfl | hba⟩
    · exact ⟨hf, .prop id BEq.rfl⟩
    · exact ⟨hf, .prop id hba⟩
  | not e ih =>
    refine (ih h).bind ?_
    rintro f t ht - ⟨hf, built⟩
    refine (Build.not_leads ht hf).mono ?_
    rintro g u - ⟨hg, hneg⟩
    exact ⟨hg, .not built hneg⟩
  | next e ih =>
    refine (ih h).bind ?_
    rintro f t ht - ⟨hf, built⟩
    refine (Build.next_leads ht hf).mono ?_
    rintro g u - ⟨hg, id, rfl⟩
    exact ⟨hg, .next id built⟩
  | always e ih =>
    refine (ih h).bind ?_
    rintro f t ht - ⟨hf, built⟩
    refine (Build.ff_leads ht).bind ?_
    rintro z u hu hkeep ⟨hz, id, rfl⟩
    refine (Build.binary_leads hu .release hz (hkeep f hf)).mono ?_
    rintro g x - ⟨hg, made⟩
    exact ⟨hg, .always id built made⟩
  | eventually e ih =>
    refine (ih h).bind ?_
    rintro f t ht - ⟨hf, built⟩
    refine (Build.tt_leads ht).bind ?_
    rintro z u hu hkeep ⟨hz, id, rfl⟩
    refine (Build.binary_leads hu .strongUntil hz (hkeep f hf)).mono ?_
    rintro g x - ⟨hg, made⟩
    exact ⟨hg, .eventually id built made⟩
  | binary op l r ihl ihr =>
    refine (ihl h).bind ?_
    rintro f t ht - ⟨hf, builtl⟩
    refine (ihr ht).bind ?_
    rintro g u hu hkeep ⟨hg, builtr⟩
    refine (Build.binary_leads hu op (hkeep f hf) hg).mono ?_
    rintro k x - ⟨hk, made⟩
    exact ⟨hk, .binary builtl builtr made⟩
  -- the left operand is negated after both have been built
  | implies l r ihl ihr =>
    refine (ihl h).bind ?_
    rintro f t ht - ⟨hf, builtl⟩
    refine (ihr ht).bind ?_
    rintro g u hu hkeep ⟨hg, builtr⟩
    refine (Build.not_leads hu (hkeep f hf)).bind ?_
    rintro n w hw hkeep' ⟨hn, hneg⟩
    refine (Build.binary_leads hw .disj hn (hkeep' g hg)).mono ?_
    rintro k x - ⟨hk, made⟩
    exact ⟨hk, .implies builtl builtr hneg made⟩

end Expression
end LinearTime
