/-
  LinearTime.Proofs.Walks — finite and infinite walks over a finite digraph.

  Moves are the edges of a digraph with whatever they carry.  An infinite run
  over finitely many nodes stays, from some time on, among nodes that can be
  reached from each other.  Conversely, a walk into such a class and round in it
  can be continued for ever.  So there is a run that takes moves of some kinds
  again and again exactly if a class can be reached that has moves of all these
  kinds:

      run with `kind k` again and again, for every `k < kinds`
        ⟺  a class with a move of each kind can be reached

  Main results:
    * `Run.settles` — a run stays in a class in the end.
    * `Core.exists_walks` — a walk into a class, and one round in it that takes
      moves of all kinds.
    * `exists_run_iff` — the equivalence above.
    * `Core.exists_run` — a run that takes any one move of a class again and again.
-/

import LinearTime.MarkSet
import LinearTime.Proofs.StrongComponents

namespace LinearTime

/-- The indices in the union of mark sets. -/
theorem MarkSet.mem_unionAll {k : Nat} (ms : List MarkSet) :
    k ∈ unionAll ms ↔ ∃ m ∈ ms, k ∈ m := by
  have hall (ms : List MarkSet) (s : MarkSet) :
      k ∈ ms.foldl OrderedSet.union s ↔ k ∈ s ∨ ∃ m ∈ ms, k ∈ m := by
    induction ms generalizing s with
    | nil => simp
    | cons m ms ih =>
      rw [List.foldl_cons, ih, IndexSet.mem_union]
      simp only [List.mem_cons, exists_eq_or_imp]
      exact or_assoc
  unfold unionAll
  rw [hall]
  exact or_iff_right (OrderedSet.not_mem_empty k)

/-- Moves from node to node, some of which are allowed. -/
structure Moves (E : Type) where
  allowed : E → Prop
  source : E → Nat
  target : E → Nat

namespace Moves

variable {E : Type} (M : Moves E)

/-! ## §1. Walks and runs -/

/-- An allowed move leads from `u` to `v`. -/
def Edge (u v : Nat) : Prop := ∃ e, M.allowed e ∧ M.source e = u ∧ M.target e = v

/-- Allowed moves lead from `u` to `v`. -/
def Reaches : Nat → Nat → Prop := Relation.ReflTransGen M.Edge

/-- Each of two nodes can be reached from the other. -/
def Mutual (u v : Nat) : Prop := M.Reaches u v ∧ M.Reaches v u

/-- The moves lead from `u` to `v`, one after the other. -/
inductive Walk : Nat → List E → Nat → Prop
  | nil (v : Nat) : Walk v [] v
  | cons {e : E} {es : List E} {v : Nat} (he : M.allowed e) (h : Walk (M.target e) es v) :
    Walk (M.source e) (e :: es) v

/-- The moves lead on for ever from `v`. -/
structure Run (v : Nat) (ρ : Nat → E) : Prop where
  start : M.source (ρ 0) = v
  allowed : ∀ n, M.allowed (ρ n)
  next : ∀ n, M.source (ρ (n + 1)) = M.target (ρ n)

/-- The move stays in the class of `u`. -/
structure Inside (u : Nat) (e : E) : Prop where
  allowed : M.allowed e
  source : M.Mutual u (M.source e)
  target : M.Mutual u (M.target e)

/-- The class of `u` has moves, and among them some of every kind. -/
structure Core (u : Nat) (kinds : Nat) (kind : Nat → E → Prop) : Prop where
  stays : ∃ e, M.Inside u e
  all : ∀ k < kinds, ∃ e, M.Inside u e ∧ kind k e

variable {M} {u v w : Nat}

/-- Walks that meet make one walk. -/
theorem Walk.append {es fs : List E} (h : M.Walk u es v) (h' : M.Walk v fs w) :
    M.Walk u (es ++ fs) w := by
  induction h with
  | nil => exact h'
  | cons he _ ih => exact .cons he (ih h')

/-- What is reached is reached by a walk. -/
theorem Reaches.exists_walk (h : M.Reaches u v) : ∃ es, M.Walk u es v := by
  induction h with
  | refl => exact ⟨[], .nil u⟩
  | tail _ hedge ih =>
    obtain ⟨es, hes⟩ := ih
    obtain ⟨e, he, rfl, rfl⟩ := hedge
    exact ⟨es ++ [e], hes.append (.cons he (.nil _))⟩

theorem Mutual.symm (h : M.Mutual u v) : M.Mutual v u := ⟨h.2, h.1⟩

theorem Mutual.trans (h : M.Mutual u v) (h' : M.Mutual v w) : M.Mutual u w :=
  ⟨h.1.trans h'.1, h'.2.trans h.2⟩

/-! ## §2. Runs stay in a class in the end -/

/-- Something that happens `n` times or later, for every `n`. -/
def Often (ρ : Nat → E) (P : E → Prop) : Prop := ∀ n, ∃ m, n ≤ m ∧ P (ρ m)

/-- A sequence of numbers below a bound takes one of them again and again. -/
theorem exists_recurring {x : Nat → Nat} {bound : Nat} (h : ∀ n, x n < bound) :
    ∃ v, ∀ n, ∃ m, n ≤ m ∧ x m = v := by
  by_contra hnone
  push Not at hnone
  choose last hlast using hnone
  -- after the last occurrences of all numbers nothing is left
  have hle := fun v hv => Finset.le_sup (f := last) (Finset.mem_range.2 (hv : v < bound))
  exact hlast _ ((Finset.range bound).sup last) (hle _ (h _)) rfl

/-- Along a run every later node is reached from every earlier one. -/
theorem Run.reaches {ρ : Nat → E} (h : M.Run v ρ) {m n : Nat} (hmn : m ≤ n) :
    M.Reaches (M.source (ρ m)) (M.source (ρ n)) := by
  induction n, hmn using Nat.le_induction with
  | base => exact .refl
  | succ n _ ih => exact ih.tail ⟨ρ n, h.allowed n, rfl, (h.next n).symm⟩

/-- In the end a run only passes nodes of one class. -/
theorem Run.settles {ρ : Nat → E} (h : M.Run v ρ) {bound : Nat}
    (hbound : ∀ n, M.source (ρ n) < bound) :
    ∃ N u, M.Reaches v u ∧ ∀ n, N ≤ n → M.Inside u (ρ n) := by
  obtain ⟨u, hu⟩ := exists_recurring hbound
  obtain ⟨N, -, hN⟩ := hu 0
  -- from the first visit on, every source and `u` are reached from each other
  have hmutual (n : Nat) (hn : N ≤ n) : M.Mutual u (M.source (ρ n)) := by
    obtain ⟨m, hm, hmu⟩ := hu n
    constructor
    · rw [← hN]
      exact h.reaches hn
    · rw [← hmu]
      exact h.reaches hm
  refine ⟨N, u, ?_, fun n hn => ⟨h.allowed n, hmutual n hn, ?_⟩⟩
  · rw [← h.start, ← hN]
    exact h.reaches (Nat.zero_le N)
  · rw [← h.next]
    exact hmutual (n + 1) (by omega)

/-- What a run does again and again it does in the class it stays in. -/
theorem Run.exists_core {ρ : Nat → E} (h : M.Run v ρ) {bound : Nat}
    (hbound : ∀ n, M.source (ρ n) < bound) {kinds : Nat} {kind : Nat → E → Prop}
    (hkinds : ∀ k < kinds, Often ρ (kind k)) : ∃ u, M.Reaches v u ∧ M.Core u kinds kind := by
  obtain ⟨N, u, hvu, hinside⟩ := h.settles hbound
  refine ⟨u, hvu, ⟨ρ N, hinside N (le_refl N)⟩, fun k hk => ?_⟩
  obtain ⟨m, hm, hkind⟩ := hkinds k hk N
  exact ⟨ρ m, hinside m hm, hkind⟩

/-! ## §3. Going round for ever -/

/-- First the moves of `p`, then those of `c` again and again. -/
def loop (p c : List E) (hc : 0 < c.length) (n : Nat) : E :=
  if h : n < p.length then p[n] else c.get ⟨(n - p.length) % c.length, Nat.mod_lt _ hc⟩

/-- A loop begins with what leads up to it. -/
theorem loop_of_lt {p c : List E} (hc : 0 < c.length) {n : Nat} (h : n < p.length) :
    loop p c hc n = p[n] := dif_pos h

/-- Behind that the loop goes round and round. -/
theorem loop_add {p round : List E} (hpos : 0 < round.length) {n m : Nat} (hm : m < round.length)
    (h : n % round.length = m) : loop p round hpos (p.length + n) = round[m] := by
  subst h
  unfold loop
  rw [dif_neg (by omega)]
  simp

/-- A walk takes allowed moves only. -/
theorem Walk.allowed_of_mem {es : List E} (h : M.Walk u es v) : ∀ e ∈ es, M.allowed e := by
  induction h with
  | nil => exact fun e he => absurd he List.not_mem_nil
  | cons he _ ih =>
    intro e hmem
    rcases List.mem_cons.1 hmem with rfl | hmem
    · exact he
    · exact ih e hmem

/-- A walk without moves stays where it is. -/
theorem Walk.eq_of_nil (h : M.Walk u [] v) : u = v := by
  cases h
  rfl

/-- A walk leaves the node it starts from. -/
theorem Walk.source_zero {es : List E} (h : M.Walk u es v) (hes : 0 < es.length) :
    M.source es[0] = u := by
  cases h with
  | nil => simp at hes
  | cons => rfl

/-- Every move of a walk starts where the one before it ended. -/
theorem Walk.source_succ {es : List E} (h : M.Walk u es v) {n : Nat} (hn : n + 1 < es.length) :
    M.source es[n + 1] = M.target es[n] := by
  induction h generalizing n with
  | nil => simp at hn
  | @cons e es v _ h ih =>
    simp only [List.length_cons] at hn
    cases n with
    | zero => exact h.source_zero (by omega)
    | succ n => exact ih (by omega)

/-- The last move of a walk enters the node it ends in. -/
theorem Walk.target_last {es : List E} (h : M.Walk u es v) {n : Nat} (hlt : n < es.length)
    (hn : n + 1 = es.length) : M.target es[n] = v := by
  induction h generalizing n with
  | nil => simp at hn
  | @cons e es v _ h ih =>
    simp only [List.length_cons] at hn hlt
    cases n with
    | zero =>
      have hnil : es = [] := List.length_eq_zero_iff.1 (by omega)
      subst hnil
      exact h.eq_of_nil
    | succ n => exact ih (by omega) (by omega)

/-- The place after the `m`-th one of a round is the next one, or the first. -/
theorem succ_mod_cases {n : Nat} (hn : 0 < n) (m : Nat) :
    (m % n + 1 = n ∧ (m + 1) % n = 0) ∨ (m % n + 1 < n ∧ (m + 1) % n = m % n + 1) := by
  have hlt := Nat.mod_lt m hn
  by_cases hwrap : m % n + 1 = n
  · refine .inl ⟨hwrap, ?_⟩
    rw [← Nat.mod_add_mod, hwrap, Nat.mod_self]
  · refine .inr ⟨by omega, ?_⟩
    rw [← Nat.mod_add_mod]
    exact Nat.mod_eq_of_lt (by omega)

/-- A walk, followed by a round again and again, is a run. -/
theorem run_loop {p c : List E} (hp : M.Walk u p v) (hround : M.Walk v c v)
    (hc : 0 < c.length) : M.Run u (loop p c hc) := by
  have hfirst : M.source (loop p c hc p.length) = v := by
    have hloop := loop_add (p := p) hc hc (Nat.zero_mod c.length)
    rw [Nat.add_zero] at hloop
    rw [hloop]
    exact hround.source_zero hc
  exact {
    start := by
      by_cases h : 0 < p.length
      · rw [loop_of_lt hc h]
        exact hp.source_zero h
      · have hnil : p = [] := List.length_eq_zero_iff.1 (by omega)
        subst hnil
        cases hp
        exact hfirst
    allowed := by
      intro n
      by_cases h : n < p.length
      · rw [loop_of_lt hc h]
        exact hp.allowed_of_mem _ (List.getElem_mem h)
      · obtain ⟨m, rfl⟩ := Nat.exists_eq_add_of_le (Nat.le_of_not_lt h)
        rw [loop_add hc (Nat.mod_lt m hc) rfl]
        exact hround.allowed_of_mem _ (List.getElem_mem _)
    next := by
      intro n
      -- along the walk, from its end into the round, or around
      rcases Nat.lt_trichotomy (n + 1) p.length with h | hlast | h
      · rw [loop_of_lt hc h, loop_of_lt hc (by omega)]
        exact hp.source_succ h
      · rw [loop_of_lt hc (by omega : n < p.length), hp.target_last (by omega) hlast, hlast]
        exact hfirst
      · obtain ⟨m, rfl⟩ := Nat.exists_eq_add_of_le (by omega : p.length ≤ n)
        have hmod := Nat.mod_lt m hc
        rw [Nat.add_assoc, loop_add hc hmod rfl]
        rcases succ_mod_cases hc m with ⟨hwrap, hzero⟩ | ⟨hlt, hsucc⟩
        · rw [loop_add hc hc hzero, hround.source_zero hc, hround.target_last hmod hwrap]
        · rw [loop_add hc hlt hsucc]
          exact hround.source_succ hlt }

/-- Every move of the round is taken again and again. -/
theorem often_loop {p c : List E} (hc : 0 < c.length) {P : E → Prop} {e : E} (he : e ∈ c)
    (hP : P e) : Often (loop p c hc) P := by
  intro n
  obtain ⟨i, hi, rfl⟩ := List.mem_iff_getElem.1 he
  refine ⟨p.length + (i + n * c.length), ?_, ?_⟩
  · have := Nat.le_mul_of_pos_right n hc
    omega
  · have hmod : (i + n * c.length) % c.length = i := by
      rw [Nat.add_mul_mod_self_right, Nat.mod_eq_of_lt hi]
    rw [loop_add hc hi hmod]
    exact hP

/-- If a move stays in a class, then some such move starts at any of its nodes. -/
theorem Inside.exists_from {e : E} (he : M.Inside u e) (huv : M.Mutual u v) :
    ∃ f, M.Inside u f ∧ M.source f = v := by
  have hwalk : M.Reaches v (M.source e) := huv.2.trans he.source.1
  rcases Relation.ReflTransGen.cases_head hwalk with heq | ⟨x, ⟨f, hf, hfv, rfl⟩, hx⟩
  · exact ⟨e, he, heq.symm⟩
  · refine ⟨f, ⟨hf, ?_, ?_⟩, hfv⟩
    · rw [hfv]
      exact huv
    · exact ⟨huv.1.tail ⟨f, hf, hfv, rfl⟩, Relation.ReflTransGen.trans hx he.source.2⟩

/-- One round through a class can take any moves of the class. -/
theorem exists_round (es : List E) (h : ∀ e ∈ es, M.Inside u e) :
    ∃ c, M.Walk u c u ∧ ∀ e ∈ es, e ∈ c := by
  induction es with
  | nil => exact ⟨[], .nil u, fun e he => absurd he List.not_mem_nil⟩
  | cons e es ih =>
    obtain ⟨c, hc, hes⟩ := ih fun f hf => h f (List.mem_cons_of_mem _ hf)
    have he := h e List.mem_cons_self
    obtain ⟨out, hout⟩ := Reaches.exists_walk he.source.1
    obtain ⟨back, hback⟩ := Reaches.exists_walk he.target.2
    refine ⟨c ++ (out ++ e :: back), hc.append (hout.append (.cons he.allowed hback)), ?_⟩
    intro f hf
    rcases List.mem_cons.1 hf with rfl | hf
    · simp
    · exact List.mem_append_left _ (hes f hf)

/-- A walk into a class, and one round in it that takes moves of all kinds. -/
theorem Core.exists_walks {kinds : Nat} {kind : Nat → E → Prop} (h : M.Core u kinds kind)
    (hvu : M.Reaches v u) :
    ∃ p c, M.Walk v p u ∧ M.Walk u c u ∧ 0 < c.length ∧ ∀ k < kinds, ∃ e ∈ c, kind k e := by
  obtain ⟨e, he⟩ := h.stays
  have : Nonempty E := ⟨e⟩
  choose! move hmove using h.all
  have hinside : ∀ f ∈ e :: (List.range kinds).map move, M.Inside u f := by
    intro f hf
    rcases List.mem_cons.1 hf with rfl | hf
    · exact he
    · obtain ⟨k, hk, rfl⟩ := List.mem_map.1 hf
      exact (hmove k (List.mem_range.1 hk)).1
  -- one round through the edges of all kinds
  obtain ⟨c, hround, hc⟩ := exists_round _ hinside
  obtain ⟨p, hp⟩ := Reaches.exists_walk hvu
  refine ⟨p, c, hp, hround, List.length_pos_of_mem (hc e List.mem_cons_self), fun k hk => ?_⟩
  have hmem : move k ∈ (List.range kinds).map move :=
    List.mem_map_of_mem (List.mem_range.2 hk)
  exact ⟨move k, hc _ (List.mem_cons_of_mem _ hmem), (hmove k hk).2⟩

/-- A run takes moves of all kinds again and again if it can reach a class that
    has moves of all kinds. -/
theorem exists_run_iff {bound : Nat} (hbound : ∀ e, M.allowed e → M.source e < bound)
    {kinds : Nat} {kind : Nat → E → Prop} :
    (∃ ρ, M.Run v ρ ∧ ∀ k < kinds, Often ρ (kind k))
      ↔ ∃ u, M.Reaches v u ∧ M.Core u kinds kind := by
  constructor
  · rintro ⟨ρ, hρ, hkinds⟩
    exact hρ.exists_core (fun n => hbound _ (hρ.allowed n)) hkinds
  · rintro ⟨u, hvu, hcore⟩
    obtain ⟨p, c, hp, hround, hc, hkinds⟩ := hcore.exists_walks hvu
    refine ⟨loop p c hc, run_loop hp hround hc, fun k hk => ?_⟩
    obtain ⟨e, he, hkind⟩ := hkinds k hk
    exact often_loop hc he hkind

/-- In a class with moves of all kinds a run can take any one move again and
    again, besides moves of all kinds. -/
theorem Core.exists_run {kinds bound : Nat} {kind : Nat → E → Prop} {e : E}
    (h : M.Core u kinds kind) (hbound : ∀ f, M.allowed f → M.source f < bound)
    (he : M.Inside u e) :
    ∃ ρ, M.Run u ρ ∧ (∀ k < kinds, Often ρ (kind k)) ∧ Often ρ (· = e) := by
  -- being the move `e` is one more kind
  let more (k : Nat) (f : E) : Prop := if k < kinds then kind k f else f = e
  have hcore : M.Core u (kinds + 1) more := by
    refine ⟨h.stays, fun k hk => ?_⟩
    by_cases hlt : k < kinds
    · obtain ⟨f, hf, hkind⟩ := h.all k hlt
      exact ⟨f, hf, by simpa only [more, if_pos hlt] using hkind⟩
    · exact ⟨e, he, by simp only [more, if_neg hlt]⟩
  obtain ⟨ρ, hrun, hoften⟩ := (exists_run_iff hbound).2 ⟨u, .refl, hcore⟩
  refine ⟨ρ, hrun, fun k hk => ?_, ?_⟩
  · simpa only [more, if_pos hk] using hoften k (by omega)
  · simpa only [more, if_neg (Nat.lt_irrefl kinds)] using hoften kinds (by omega)

end Moves
end LinearTime
