/-
  LinearTime.Proofs.Histories — the sessions that can come about.

  A session starts without formulas.  What happens to it are constructor calls
  on formulas that it shares, simplifications of such formulas with any table
  of rules, and resets.

  Main results:
    * `Reached.canonical` — every session that comes about is canonical.
    * `Expression.build_keeps` — building an expression is a run of calls, so it
      keeps what every call keeps.
    * `Reached.build` — what an expression is built in stays a session that can
      come about.
-/

import LinearTime.Proofs.Simplifying

namespace LinearTime

variable {α : Type}

open Session (Discipline)

/-- One call of a constructor. -/
inductive Build.Call (α : Type) where
  | tt
  | ff
  | prop (atom : α)
  | not (f : Formula α)
  | next (f : Formula α)
  | always (f : Formula α)
  | eventually (f : Formula α)
  | binary (op : BinaryOp) (left right : Formula α)
  | implies (left right : Formula α)

namespace Build.Call

/-- The formulas that the constructor is called on. -/
def operands : Call α → List (Formula α)
  | tt | ff | prop _ => []
  | not f | next f | always f | eventually f => [f]
  | binary _ l r | implies l r => [l, r]

variable [BEq α]

/-- What the call does. -/
def run : Call α → Build α (Formula α)
  | tt => Build.tt
  | ff => Build.ff
  | prop a => Build.prop a
  | not f => Build.not f
  | next f => Build.next f
  | always f => Build.always f
  | eventually f => Build.eventually f
  | binary op l r => Build.binary op l r
  | implies l r => Build.implies l r

/-- Every call on known formulas gives a known formula. -/
theorem run_leads {Sound : Session α → Prop} [Discipline Sound] {s : Session α} (h : Sound s)
    (c : Call α) (hc : ∀ f ∈ c.operands, f ∈ s.known Sound) :
    Leads Sound c.run s fun f t => f ∈ t.known Sound := by
  cases c with
  | tt => exact (tt_leads h).mono fun _ _ _ hf => hf.1
  | ff => exact (ff_leads h).mono fun _ _ _ hf => hf.1
  | prop a => exact (prop_leads h a).mono fun _ _ _ hf => hf.1
  | not f => exact (not_leads h (hc f List.mem_cons_self)).mono fun _ _ _ hf => hf.1
  | next f => exact (next_leads h (hc f List.mem_cons_self)).mono fun _ _ _ hf => hf.1
  | always f =>
    refine (ff_leads h).bind ?_
    rintro z t ht hkeep ⟨hz, -⟩
    -- what was known before the constant is known behind it
    have hf := hkeep f (hc f List.mem_cons_self)
    exact (binary_leads ht .release hz hf).mono fun _ _ _ hg => hg.1
  | eventually f =>
    refine (tt_leads h).bind ?_
    rintro z t ht hkeep ⟨hz, -⟩
    have hf := hkeep f (hc f List.mem_cons_self)
    exact (binary_leads ht .strongUntil hz hf).mono fun _ _ _ hg => hg.1
  | binary op l r =>
    have hl := hc l List.mem_cons_self
    have hr := hc r (List.mem_cons_of_mem _ List.mem_cons_self)
    exact (binary_leads h op hl hr).mono fun _ _ _ hg => hg.1
  | implies l r =>
    refine (not_leads h (hc l List.mem_cons_self)).bind ?_
    rintro n t ht hkeep ⟨hn, -⟩
    have hr := hkeep r (hc r (List.mem_cons_of_mem _ List.mem_cons_self))
    exact (binary_leads ht .disj hn hr).mono fun _ _ _ hg => hg.1

end Build.Call

/-- The sessions that come about. -/
inductive Session.Reached [BEq α] : Session α → Prop
  | start : Reached {}
  | call {s : Session α} (c : Build.Call α) (h : Reached s)
    (hc : ∀ f ∈ c.operands, f ∈ s.interned) : Reached (c.run s).2
  | simplify {s : Session α} (table : RuleTable) {f : Formula α} (h : Reached s)
    (hf : f ∈ s.interned) : Reached (table.simplify f s).2
  | reset {s : Session α} (h : Reached s) : Reached s.reset

/-- Every session that comes about is canonical. -/
theorem Session.Reached.canonical [BEq α] [EquivBEq α] {s : Session α} (h : s.Reached) :
    s.Canonical := by
  induction h with
  | start => exact Session.canonical_of_interned_nil rfl
  | call c _ hc ih => exact (c.run_leads ih hc).sound
  | simplify table _ hf ih => exact (table.simplify_canonical ih hf).sound
  | reset _ _ => exact Session.canonical_of_interned_nil rfl

/-- What is built from an expression is shared. -/
theorem Session.Reached.built_mem [BEq α] [EquivBEq α] {s : Session α} (h : s.Reached)
    (e : Expression α) : (e.build s).1 ∈ (e.build s).2.interned :=
  (e.build_leads h.canonical).result.1

/-- Building an expression is a run of calls, one for each operator: it keeps what calls
    on shared formulas keep. -/
theorem Expression.build_keeps [BEq α] [EquivBEq α] {P : Session α → Prop}
    (hcanonical : ∀ {s}, P s → s.Canonical)
    (hcall : ∀ {s} (c : Build.Call α), P s → (∀ f ∈ c.operands, f ∈ s.interned) → P (c.run s).2)
    {s : Session α} (h : P s) (e : Expression α) : P (e.build s).2 := by
  have hmem {s : Session α} (h : P s) (e : Expression α) :
      (e.build s).1 ∈ (e.build s).2.interned :=
    (e.build_leads (hcanonical h)).result.1
  induction e generalizing s with
  | tt => exact hcall .tt h nofun
  | ff => exact hcall .ff h nofun
  | prop a => exact hcall (.prop a) h nofun
  | not e ih =>
    exact hcall (.not (e.build s).1) (ih h) (List.forall_mem_singleton.2 (hmem h e))
  | next e ih =>
    exact hcall (.next (e.build s).1) (ih h) (List.forall_mem_singleton.2 (hmem h e))
  | always e ih =>
    exact hcall (.always (e.build s).1) (ih h) (List.forall_mem_singleton.2 (hmem h e))
  | eventually e ih =>
    exact hcall (.eventually (e.build s).1) (ih h) (List.forall_mem_singleton.2 (hmem h e))
  | binary op l r ihl ihr =>
    -- the left operand is still shared when the right one has been built
    have hl := (r.build_leads (hcanonical (ihl h))).keeps _ (hmem h l)
    exact hcall (.binary op (l.build s).1 (r.build (l.build s).2).1) (ihr (ihl h))
      (List.forall_mem_cons.2 ⟨hl, List.forall_mem_singleton.2 (hmem (ihl h) r)⟩)
  | implies l r ihl ihr =>
    have hl := (r.build_leads (hcanonical (ihl h))).keeps _ (hmem h l)
    exact hcall (.implies (l.build s).1 (r.build (l.build s).2).1) (ihr (ihl h))
      (List.forall_mem_cons.2 ⟨hl, List.forall_mem_singleton.2 (hmem (ihl h) r)⟩)

theorem Session.Reached.build [BEq α] [EquivBEq α] {s : Session α} (h : s.Reached)
    (e : Expression α) : (e.build s).2.Reached :=
  e.build_keeps Session.Reached.canonical (fun c h hc => .call c h hc) h

end LinearTime
