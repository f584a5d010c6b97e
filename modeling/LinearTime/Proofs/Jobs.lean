/-
  LinearTime.Proofs.Jobs — what a job does to the session it works in.

  Jobs build formulas, and all that they do to a session is interning.  So what
  interning keeps of a session, every job keeps:

      one interning           the session stays sound, nothing known is lost
      any job                 the same, and the result is as told

  What it means that a session is sound differs: one session knows only the formulas
  that it shares, another one also those that it forgot in a reset.  A `Discipline`
  is such a notion together with the formulas that may be built over.  What is
  proved here about jobs is proved once, for all disciplines.

  The result of a constructor has one of the shapes that `Made` and `Negates` list:

      Made op l r g     `g` stands for the operator `op` over `l` and `r`
      Negates f g       `g` is the negation of `f`, pushed inwards

  Both speak about trees only, so what follows from them needs no session.

  Main results:
    * `Build.Leads` — the form of all statements about jobs, with `Leads.bind` for
      one after the other.
    * `intern_leads` — one interning.
    * `binary_leads`, `not_leads` — the constructors.
-/

import LinearTime.Formula.Expression
import LinearTime.Formula.Fold
import Mathlib.Data.Set.Function

namespace LinearTime

variable {α : Type}

/-! ## §1. Families

A *family* is a list of formulas closed under operands whose numbers tell them apart and
grow from operands upwards. -/

namespace Formula

/-- Formulas are compared by their numbers. -/
theorem same_iff {f g : Formula α} : f.same g = true ↔ f.id = g.id := by
  unfold same
  exact beq_iff_eq

/-- All that a formula is built of is on a list with it that is closed under
    operands. -/
theorem Part.mem {U : List (Formula α)} (hU : ∀ f ∈ U, ∀ g ∈ f.operands, g ∈ U)
    {f g : Formula α} (part : Part g f) (hf : f ∈ U) : g ∈ U := by
  induction part with
  | refl => exact hf
  | next id _ ih => exact ih (hU _ hf _ (.head _))
  | left id op r _ ih => exact ih (hU _ hf _ (.head _))
  | right id op l _ ih => exact ih (hU _ hf _ (.tail _ (.head _)))

/-- Closed under operands; numbers tell the formulas apart and grow upwards. -/
structure Family (U : List (Formula α)) : Prop where
  injOn : Set.InjOn Formula.id {f | f ∈ U}
  operand_mem : ∀ f ∈ U, ∀ g ∈ f.operands, g ∈ U
  operand_lt : ∀ f ∈ U, ∀ g ∈ f.operands, g.id < f.id

namespace Family

variable {U : List (Formula α)} {f g l r : Formula α} {i k : Nat} {op : BinaryOp} {a : α}

/-- In a family a number belongs to one formula. -/
theorem eq_of_id_eq (hU : Family U) (hf : f ∈ U) (hg : g ∈ U) (hid : f.id = g.id) : f = g :=
  hU.injOn hf hg hid

/-- A family has the proposition that a negated one points to. -/
theorem prop_mem (hU : Family U) (hf : .negProp i k a ∈ U) : .prop k a ∈ U :=
  hU.operand_mem _ hf _ List.mem_cons_self

theorem next_mem (hU : Family U) (hf : .next i f ∈ U) : f ∈ U :=
  hU.operand_mem _ hf _ List.mem_cons_self

theorem left_mem (hU : Family U) (hf : .binary i op l r ∈ U) : l ∈ U :=
  hU.operand_mem _ hf _ List.mem_cons_self

theorem right_mem (hU : Family U) (hf : .binary i op l r ∈ U) : r ∈ U :=
  hU.operand_mem _ hf _ (List.mem_cons_of_mem _ List.mem_cons_self)

/-- Alternatives only ask for operands and the formula itself. -/
theorem mem_of_operand_or_eq (hU : Family U) (hf : f ∈ U) (hg : g ∈ f.operands ∨ g = f) :
    g ∈ U := by
  rcases hg with hg | rfl
  · exact hU.operand_mem f hf g hg
  · exact hf

/-- Numbers tell the parts of a formula apart. -/
theorem coherent (hU : Family U) (hf : f ∈ U) : f.Coherent :=
  fun _ _ hg hk hid => hU.injOn (hg.mem hU.operand_mem hf) (hk.mem hU.operand_mem hf) hid

/-- A family stays one with a new formula over it that has a larger number. -/
theorem cons (hU : Family U) (hlt : ∀ g ∈ U, g.id < f.id) (hoperands : ∀ g ∈ f.operands, g ∈ U) :
    Family (f :: U) where
  injOn := by
    intro g hg k hk heq
    -- the new number is greater than all others, so it is nobody else's
    rcases List.mem_cons.1 hg with hgf | hgU <;> rcases List.mem_cons.1 hk with hkf | hkU
    · rw [hgf, hkf]
    · exact absurd (heq.symm.trans (by rw [hgf])) (hlt k hkU).ne
    · exact absurd (heq.trans (by rw [hkf])) (hlt g hgU).ne
    · exact hU.injOn hgU hkU heq
  operand_mem := List.forall_mem_cons.2
    ⟨fun k hk => List.mem_cons_of_mem _ (hoperands k hk),
      fun g hg k hk => List.mem_cons_of_mem _ (hU.operand_mem g hg k hk)⟩
  operand_lt := List.forall_mem_cons.2
    ⟨fun k hk => hlt k (hoperands k hk), hU.operand_lt⟩

end Family

/-- The operands of a conjunction or disjunction are ordered by number, and a
    release is no weak until. -/
def WellShaped : Formula α → Prop
  | .binary _ op l r =>
    (op.isCommutative = true → l.id ≤ r.id)
      ∧ (op = .release → Build.alternativeTo? l r = none)
  | _ => True

end Formula

/-! ## §2. Disciplines -/

/-- A notion of a sound session, with the formulas that may be built over, and with what a
    later session keeps of an earlier one.  Whatever is interned over these formulas, the
    session stays sound, is a later one, and has the new formula among them. -/
class Session.Discipline [BEq α] (Sound : Session α → Prop) where
  formulas : Session α → List (Formula α)
  Later : Session α → Session α → Prop
  later_refl (s : Session α) : Later s s
  later_trans {s t u : Session α} (h : Later s t) (h' : Later t u) : Later s u
  keeps {s t : Session α} (h : Later s t) : ∀ f ∈ formulas s, f ∈ formulas t
  family {s : Session α} (h : Sound s) : Formula.Family (formulas s)
  interns {s : Session α} {make : Nat → Formula α} (h : Sound s) (hid : ∀ n, (make n).id = n)
    (hoperands : ∀ g ∈ (make s.nextId).operands, g ∈ formulas s)
    (hshaped : (make s.nextId).WellShaped) :
    Sound (Build.intern make s).2 ∧ Later s (Build.intern make s).2
      ∧ (Build.intern make s).1 ∈ formulas (Build.intern make s).2

/-- The formulas that may be built over. -/
abbrev Session.known [BEq α] (Sound : Session α → Prop) [Discipline Sound] (s : Session α) :
    List (Formula α) :=
  Discipline.formulas Sound s

/-! ## §3. Jobs -/

open Session (Discipline)

variable [BEq α] {Sound : Session α → Prop} [Discipline Sound] {s : Session α}

/-- The job leads to a session that is sound and later than the one it started in, and
    the result is as told. -/
structure Build.Leads (Sound : Session α → Prop) [Discipline Sound] {β : Type}
    (job : Build α β) (s : Session α) (P : β → Session α → Prop) : Prop where
  sound : Sound (job s).2
  later : Discipline.Later Sound s (job s).2
  result : P (job s).1 (job s).2

/-- The job gives a formula that is known then, and that is as told. -/
abbrev Build.Makes (Sound : Session α → Prop) [Discipline Sound]
    (job : Build α (Formula α)) (s : Session α) (R : Formula α → Prop) : Prop :=
  Leads Sound job s fun f t => f ∈ t.known Sound ∧ R f

namespace Build.Leads

variable {β γ : Type} {P : β → Session α → Prop}

/-- Nothing that was known is lost. -/
theorem keeps {job : Build α β} (h : Leads Sound job s P) :
    ∀ f ∈ s.known Sound, f ∈ (job s).2.known Sound :=
  Discipline.keeps h.later

theorem pure {b : β} (h : Sound s) (hb : P b s) : Leads Sound (Pure.pure b) s P :=
  ⟨h, Discipline.later_refl s, hb⟩

/-- After a job the next one, which starts where the first one led. -/
theorem andThen {job : Build α β} {next : β → Build α γ} {Q : γ → Session α → Prop}
    (h : Leads Sound job s P) (hn : Leads Sound (next (job s).1) (job s).2 Q) :
    Leads Sound (job >>= next) s Q :=
  ⟨hn.sound, Discipline.later_trans h.later hn.later, hn.result⟩

/-- The rule for sequences: what is known when the second job starts is all that the first
    keeps. -/
theorem bind {job : Build α β} {next : β → Build α γ} {Q : γ → Session α → Prop}
    (h : Leads Sound job s P)
    (hnext : ∀ b t, Sound t → (∀ f ∈ s.known Sound, f ∈ t.known Sound) → P b t →
      Leads Sound (next b) t Q) : Leads Sound (job >>= next) s Q :=
  h.andThen (hnext _ _ h.sound h.keeps h.result)

/-- Something else that holds of what the job leads to. -/
theorem told {job : Build α β} {Q : β → Session α → Prop} (h : Leads Sound job s P)
    (hQ : Q (job s).1 (job s).2) : Leads Sound job s Q :=
  ⟨h.sound, h.later, hQ⟩

/-- What a job leads to may be weakened. -/
theorem mono {job : Build α β} {Q : β → Session α → Prop} (h : Leads Sound job s P)
    (hPQ : ∀ b t, Sound t → P b t → Q b t) : Leads Sound job s Q :=
  h.told (hPQ _ _ h.sound h.result)

/-- Everything that was known before still is. -/
theorem keeping {job : Build α β} {Q : β → Session α → Prop} (h : Leads Sound job s P)
    (hPQ : ∀ b t, Sound t → (∀ f ∈ s.known Sound, f ∈ t.known Sound) → P b t → Q b t) :
    Leads Sound job s Q :=
  h.told (hPQ _ _ h.sound h.keeps h.result)

/-- After a job that may give nothing the next one, if it gives something. -/
theorem option_bind {job : OptionT (Build α) β} {next : β → OptionT (Build α) γ}
    {Q : γ → Session α → Prop}
    (h : Leads Sound job.run s fun r t => ∀ b, r = some b → P b t)
    (hnext : ∀ b t, Sound t → (∀ f ∈ s.known Sound, f ∈ t.known Sound) → P b t →
      Leads Sound (next b).run t fun r u => ∀ c, r = some c → Q c u) :
    Leads Sound (job >>= next).run s fun r t => ∀ c, r = some c → Q c t := by
  rw [OptionT.run_bind, Option.elimM]
  refine h.bind fun r t ht hkeep hr => ?_
  cases r with
  | none => exact .pure ht nofun
  | some b => exact hnext b t ht hkeep (hr b rfl)

/-- A job that cannot fail, run among jobs that can. -/
theorem option_lift {job : Build α β} (h : Leads Sound job s P) :
    Leads Sound (liftM job : OptionT (Build α) β).run s fun r t => ∀ b, r = some b → P b t := by
  refine h.bind fun b t ht _ hb => .pure ht fun c hc => ?_
  obtain rfl := Option.some.inj hc
  exact hb

end Build.Leads

/-! ## §4. Interning -/

namespace Build

/-- Interning gives the formula of the same shape, if there is one, and leaves the session. -/
theorem intern_of_find?_some {make : Nat → Formula α} {f : Formula α}
    (hfind : s.interned.find? (·.sameShape (make s.nextId)) = some f) :
    intern make s = (f, s) := by
  unfold intern
  simp only [hfind]

/-- Interning a shape that is not there makes a formula with the next number. -/
theorem intern_of_find?_none {make : Nat → Formula α}
    (hfind : s.interned.find? (·.sameShape (make s.nextId)) = none) :
    intern make s = (make s.nextId,
      { s with interned := make s.nextId :: s.interned, nextId := s.nextId + 1 }) := by
  unfold intern
  simp only [hfind]

/-- What is interned is new, or it was shared under the shape that is asked for. -/
theorem intern_shape (make : Nat → Formula α) (s : Session α) :
    (intern make s).1 = make s.nextId ∨ (intern make s).1.sameShape (make s.nextId) = true := by
  cases hfind : s.interned.find? (·.sameShape (make s.nextId)) with
  | some f =>
    rw [intern_of_find?_some hfind]
    exact .inr (by simpa using List.find?_some hfind)
  | none =>
    rw [intern_of_find?_none hfind]
    exact .inl rfl

/-- Interning gives a known formula that is new, or of the shape that is asked for. -/
theorem intern_leads (make : Nat → Formula α) (h : Sound s) (hid : ∀ n, (make n).id = n)
    (hoperands : ∀ g ∈ (make s.nextId).operands, g ∈ s.known Sound)
    (hshaped : (make s.nextId).WellShaped) :
    Makes Sound (intern make) s
      fun f => f = make s.nextId ∨ f.sameShape (make s.nextId) = true := by
  obtain ⟨hsound, hlater, hmem⟩ := Discipline.interns h hid hoperands hshaped
  exact ⟨hsound, hlater, hmem, intern_shape make s⟩

/-- Interning gives what is asked for under some number, if no other known formula has
    this shape. -/
theorem intern_leads_make {make : Nat → Formula α} (h : Sound s) (hid : ∀ n, (make n).id = n)
    (hoperands : ∀ g ∈ (make s.nextId).operands, g ∈ s.known Sound)
    (hshaped : (make s.nextId).WellShaped)
    (hmake : ∀ t : Session α, Sound t → (∀ f ∈ s.known Sound, f ∈ t.known Sound) →
      ∀ g ∈ t.known Sound, g.sameShape (make s.nextId) = true → ∃ i, g = make i) :
    Makes Sound (intern make) s fun f => ∃ i, f = make i := by
  refine (intern_leads make h hid hoperands hshaped).keeping ?_
  rintro g t ht hkeep ⟨hg, rfl | hshape⟩
  · exact ⟨hg, s.nextId, rfl⟩
  · exact ⟨hg, hmake t ht hkeep g hg hshape⟩

theorem tt_leads (h : Sound s) :
    Makes Sound tt s fun f => ∃ i, f = .tt i := by
  refine intern_leads_make h (fun _ => rfl) nofun trivial ?_
  intro t _ _ g _ hshape
  cases g with
  | tt i => exact ⟨i, rfl⟩
  | _ => cases hshape

theorem ff_leads (h : Sound s) :
    Makes Sound ff s fun f => ∃ i, f = .ff i := by
  refine intern_leads_make h (fun _ => rfl) nofun trivial ?_
  intro t _ _ g _ hshape
  cases g with
  | ff i => exact ⟨i, rfl⟩
  | _ => cases hshape

/-- A proposition may have been built before from an equal atom. -/
theorem prop_leads (h : Sound s) (a : α) :
    Makes Sound (prop a) s fun f => ∃ i b, f = .prop i b ∧ (b = a ∨ (b == a) = true) := by
  refine (intern_leads (.prop · a) h (fun _ => rfl) nofun trivial).mono ?_
  rintro f t - ⟨hf, rfl | hshape⟩
  · exact ⟨hf, _, a, rfl, .inl rfl⟩
  · cases f with
    | prop i b => exact ⟨hf, i, b, rfl, .inr hshape⟩
    | _ => cases hshape

theorem negProp_leads (h : Sound s) {i : Nat} {a : α} (hp : .prop i a ∈ s.known Sound) :
    Makes Sound (intern (.negProp · i a)) s fun f => ∃ j, f = .negProp j i a := by
  refine intern_leads_make h (fun _ => rfl) (List.forall_mem_singleton.2 hp) trivial ?_
  intro t ht hkeep g hg hshape
  have hfamily := Discipline.family ht
  cases g with
  | negProp j k b =>
    obtain rfl : k = i := beq_iff_eq.1 hshape
    -- the atom is that of the proposition below
    obtain ⟨⟩ := hfamily.eq_of_id_eq (hfamily.prop_mem hg) (hkeep _ hp) rfl
    exact ⟨j, rfl⟩
  | _ => cases hshape

theorem next_leads (h : Sound s) {f : Formula α} (hf : f ∈ s.known Sound) :
    Makes Sound (next f) s fun g => ∃ i, g = .next i f := by
  refine intern_leads_make h (fun _ => rfl) (List.forall_mem_singleton.2 hf) trivial ?_
  intro t ht hkeep g hg hshape
  have hfamily := Discipline.family ht
  cases g with
  | next i f' =>
    obtain rfl := hfamily.eq_of_id_eq (hfamily.next_mem hg) (hkeep f hf)
      (Formula.same_iff.1 hshape)
    exact ⟨i, rfl⟩
  | _ => cases hshape

/-- Interning an operator over known operands makes that operator of them. -/
theorem operator_leads (h : Sound s) (op : BinaryOp) {l r : Formula α}
    (hl : l ∈ s.known Sound) (hr : r ∈ s.known Sound)
    (hshaped : (Formula.binary s.nextId op l r).WellShaped) :
    Makes Sound (intern (.binary · op l r)) s fun g => ∃ i, g = .binary i op l r := by
  refine intern_leads_make h (fun _ => rfl)
    (List.forall_mem_cons.2 ⟨hl, List.forall_mem_singleton.2 hr⟩) hshaped ?_
  intro t ht hkeep g hg hshape
  have hfamily := Discipline.family ht
  cases g with
  | binary i op' l' r' =>
    simp only [Formula.sameShape, Bool.and_eq_true, beq_iff_eq, Formula.same_iff] at hshape
    obtain ⟨⟨rfl, hll⟩, hrr⟩ := hshape
    -- operands are compared by number, which tells known formulas apart
    obtain rfl := hfamily.eq_of_id_eq (hfamily.left_mem hg) (hkeep l hl) hll
    obtain rfl := hfamily.eq_of_id_eq (hfamily.right_mem hg) (hkeep r hr) hrr
    exact ⟨i, rfl⟩
  | _ => cases hshape

end Build

/-! ## §5. What constructors make -/

/-- What a constructor makes of an operator over two formulas: the operator
    itself, with the operands the other way round if they may be, or the weak
    until that a release is. -/
inductive Formula.Made : BinaryOp → Formula α → Formula α → Formula α → Prop
  | plain (id : Nat) (op : BinaryOp) (l r : Formula α) : Made op l r (.binary id op l r)
  | swapped (id : Nat) {op : BinaryOp} (l r : Formula α) (h : op.isCommutative = true) :
    Made op l r (.binary id op r l)
  | weak (id k : Nat) (y l : Formula α) :
    Made .release l (.binary k .disj y l) (.binary id .weakUntil y l)
  | weakSwapped (id k : Nat) (y l : Formula α) :
    Made .release l (.binary k .disj l y) (.binary id .weakUntil y l)

/-- The operator that the negation of an operator is pushed through to. -/
def BinaryOp.dual : BinaryOp → BinaryOp
  | .conj => .disj
  | .disj => .conj
  | .strongUntil => .release
  | .release => .strongUntil
  | .weakUntil => .strongUntil

/-- What the constructor makes of a negation, one rule for each operator.  The
    negation of a weak until `l W r` is `! r U (! l /\ ! r)`. -/
inductive Formula.Negates : Formula α → Formula α → Prop
  | tt (i j : Nat) : Negates (.tt i) (.ff j)
  | ff (i j : Nat) : Negates (.ff i) (.tt j)
  | prop (i j : Nat) (a : α) : Negates (.prop i a) (.negProp j i a)
  | negProp (i j : Nat) (a : α) : Negates (.negProp j i a) (.prop i a)
  | next (i j : Nat) {f g : Formula α} (h : Negates f g) : Negates (.next i f) (.next j g)
  | dual (i : Nat) {op : BinaryOp} {l r l' r' g : Formula α} (h : op ≠ .weakUntil)
    (hl : Negates l l') (hr : Negates r r') (made : Made op.dual l' r' g) :
    Negates (.binary i op l r) g
  | weak (i : Nat) {l r l' r' c g : Formula α} (hl : Negates l l') (hr : Negates r r')
    (both : Made .conj l' r' c) (made : Made .strongUntil r' c g) :
    Negates (.binary i .weakUntil l r) g

omit [BEq α] in
/-- The alternative is found in a disjunction with the formula itself. -/
theorem Build.alternativeTo?_eq_some {l r y : Formula α} (h : alternativeTo? l r = some y) :
    ∃ id a b, r = .binary id .disj a b
      ∧ ((a.same l = true ∧ y = b) ∨ (b.same l = true ∧ y = a)) := by
  unfold alternativeTo? at h
  split at h
  next id a b =>
    refine ⟨id, a, b, rfl, ?_⟩
    split at h
    next ha => exact .inl ⟨ha, (Option.some.inj h).symm⟩
    next =>
      split at h
      next hb => exact .inr ⟨hb, (Option.some.inj h).symm⟩
      next => cases h
  next => cases h

namespace Build

/-- Which operator is interned for an operator over two formulas of a family. -/
theorem binary_interns {U : List (Formula α)} (hU : Formula.Family U) (op : BinaryOp)
    {l r : Formula α} (hl : l ∈ U) (hr : r ∈ U) :
    ∃ op' l' r', binary op l r = intern (.binary · op' l' r') ∧ l' ∈ U ∧ r' ∈ U
      ∧ ∀ i, (Formula.binary i op' l' r').WellShaped
        ∧ Formula.Made op l r (.binary i op' l' r') := by
  have hordered (op : BinaryOp) (hop : op.isCommutative = true) :
      ∃ l' r', ordered op l r = intern (.binary · op l' r') ∧ l' ∈ U ∧ r' ∈ U
        ∧ ∀ i, (Formula.binary i op l' r').WellShaped
          ∧ Formula.Made op l r (.binary i op l' r') := by
    have hrelease : op ≠ .release := by
      rintro rfl
      cases hop
    unfold ordered
    split
    next hle =>
      exact ⟨l, r, rfl, hl, hr,
        fun i => ⟨⟨fun _ => hle, fun heq => absurd heq hrelease⟩, .plain i op l r⟩⟩
    next hgt =>
      have hle : r.id ≤ l.id := by omega
      exact ⟨r, l, rfl, hr, hl,
        fun i => ⟨⟨fun _ => hle, fun heq => absurd heq hrelease⟩, .swapped i l r hop⟩⟩
  cases op with
  | conj => exact ⟨.conj, hordered .conj rfl⟩
  | disj => exact ⟨.disj, hordered .disj rfl⟩
  | strongUntil =>
    exact ⟨.strongUntil, l, r, rfl, hl, hr, fun i => ⟨⟨nofun, nofun⟩, .plain i _ l r⟩⟩
  | weakUntil =>
    exact ⟨.weakUntil, l, r, rfl, hl, hr, fun i => ⟨⟨nofun, nofun⟩, .plain i _ l r⟩⟩
  | release =>
    show ∃ op' l' r', release l r = intern (.binary · op' l' r') ∧ _
    unfold release
    split
    next y hsome =>
      -- the alternative is an operand of the disjunction, and `l` is the other one
      obtain ⟨k, a, b, rfl, hab⟩ := alternativeTo?_eq_some hsome
      have ha : a ∈ U := hU.left_mem hr
      have hb : b ∈ U := hU.right_mem hr
      rcases hab with ⟨hal, rfl⟩ | ⟨hbl, rfl⟩
      · obtain rfl := hU.eq_of_id_eq ha hl (Formula.same_iff.1 hal)
        exact ⟨.weakUntil, y, a, rfl, hb, hl, fun i => ⟨⟨nofun, nofun⟩, .weakSwapped i k y a⟩⟩
      · obtain rfl := hU.eq_of_id_eq hb hl (Formula.same_iff.1 hbl)
        exact ⟨.weakUntil, y, b, rfl, ha, hl, fun i => ⟨⟨nofun, nofun⟩, .weak i k y b⟩⟩
    next hnone =>
      exact ⟨.release, l, r, rfl, hl, hr, fun i => ⟨⟨nofun, fun _ => hnone⟩, .plain i _ l r⟩⟩

/-- A binary operator over known operands. -/
theorem binary_leads (h : Sound s) (op : BinaryOp) {l r : Formula α}
    (hl : l ∈ s.known Sound) (hr : r ∈ s.known Sound) :
    Makes Sound (binary op l r) s (Formula.Made op l r) := by
  obtain ⟨op', l', r', hrun, hl', hr', hmade⟩ :=
    binary_interns (Discipline.family h) op hl hr
  rw [hrun]
  refine (operator_leads h op' hl' hr' (hmade _).1).mono ?_
  rintro g t - ⟨hg, i, rfl⟩
  exact ⟨hg, (hmade i).2⟩

/-- The negation of a known formula. -/
theorem not_leads (h : Sound s) {f : Formula α} (hf : f ∈ s.known Sound) :
    Makes Sound (not f) s (Formula.Negates f) := by
  induction f generalizing s with
  | tt i =>
    refine (ff_leads h).mono ?_
    rintro g t - ⟨hg, j, rfl⟩
    exact ⟨hg, .tt i j⟩
  | ff i =>
    refine (tt_leads h).mono ?_
    rintro g t - ⟨hg, j, rfl⟩
    exact ⟨hg, .ff i j⟩
  | prop i a =>
    refine (negProp_leads h hf).mono ?_
    rintro g t - ⟨hg, j, rfl⟩
    exact ⟨hg, .prop i j a⟩
  | negProp j i a =>
    exact .pure h ⟨(Discipline.family h).prop_mem hf, .negProp i j a⟩
  | next i f ih =>
    refine (ih h ((Discipline.family h).next_mem hf)).bind ?_
    rintro g t ht - ⟨hg, hneg⟩
    refine (next_leads ht hg).mono ?_
    rintro k u - ⟨hk, j, rfl⟩
    exact ⟨hk, .next i j hneg⟩
  | binary i op l r ihl ihr =>
    have hl := (Discipline.family h).left_mem hf
    have hr := (Discipline.family h).right_mem hf
    -- both operands first, whatever the operator is
    have hoperands {finish : Formula α → Formula α → Build α (Formula α)}
        {R : Formula α → Prop}
        (hfinish : ∀ l' r' t, Sound t → l' ∈ t.known Sound → r' ∈ t.known Sound →
          Formula.Negates l l' → Formula.Negates r r' → Makes Sound (finish l' r') t R) :
        Makes Sound (do let l' ← not l; let r' ← not r; finish l' r') s R := by
      refine (ihl h hl).bind ?_
      rintro l' t ht hkeep ⟨hl', hnl⟩
      refine (ihr ht (hkeep r hr)).bind ?_
      rintro r' u hu hkeep' ⟨hr', hnr⟩
      exact hfinish l' r' u hu (hkeep' l' hl') hr' hnl hnr
    have hdual (hop : op ≠ .weakUntil) :
        Makes Sound (do let l' ← not l; let r' ← not r; binary op.dual l' r') s
          (Formula.Negates (.binary i op l r)) := by
      refine hoperands fun l' r' t ht hl' hr' hnl hnr => ?_
      refine (binary_leads ht op.dual hl' hr').mono ?_
      rintro g u - ⟨hg, made⟩
      exact ⟨hg, .dual i hop hnl hnr made⟩
    cases op with
    | conj => exact hdual (by decide)
    | disj => exact hdual (by decide)
    | strongUntil => exact hdual (by decide)
    | release => exact hdual (by decide)
    | weakUntil =>
      refine hoperands fun l' r' t ht hl' hr' hnl hnr => ?_
      refine (binary_leads ht .conj hl' hr').bind ?_
      rintro c u hu hkeep ⟨hc, both⟩
      refine (binary_leads hu .strongUntil (hkeep r' hr') hc).mono ?_
      rintro g x - ⟨hg, made⟩
      exact ⟨hg, .weak i hnl hnr both made⟩

end Build
end LinearTime
