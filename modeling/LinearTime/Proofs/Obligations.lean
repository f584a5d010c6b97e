/-
  LinearTime.Proofs.Obligations — sets of formulas of one family.

  The formulas of a session are a family, and so are the subformulas of each of
  them.  Within a family a set listed by creation number is a set of formulas:
  asking for a number is asking for the formula.

  Main results:
    * `OrderedSet.contains_iff_mem`, `mem_insert_iff`, `eq_of_beq` — sets whose
      elements the key tells apart.
    * `Family.subformulas` — the subformulas of a formula are a family.
-/

import LinearTime.Formula.Obligation
import LinearTime.Proofs.Sharing

namespace LinearTime

/-! ## §1. Sets within a list -/

namespace OrderedSet

variable {β : Type} {key : β → Nat} {U : List β} {s t : OrderedSet key} {x z : β}

/-- All elements are on the list. -/
def Within (s : OrderedSet key) (U : List β) : Prop := ∀ x ∈ s, x ∈ U

theorem within_empty : (empty : OrderedSet key).Within U := fun _ hx => absurd hx List.not_mem_nil

/-- Inserting a formula of the family stays within it. -/
theorem Within.insert (hs : s.Within U) (hx : x ∈ U) : (s.insert x).Within U := by
  intro z hz
  rcases mem_of_mem_place hz with rfl | hz
  · exact hx
  · exact hs z hz

/-- Within a family, looking a formula up by its number finds just the formulas of the set. -/
theorem contains_iff_mem (hU : Set.InjOn key {x | x ∈ U}) (hs : s.Within U) (hx : x ∈ U) :
    s.contains x = true ↔ x ∈ s := by
  rw [contains_eq_true_iff]
  constructor
  · rintro ⟨y, hy, heq⟩
    rwa [← hU (hs y hy) hx heq]
  · intro h
    exact ⟨x, h, rfl⟩

/-- Within a family, inserting adds the formula and nothing else. -/
theorem mem_insert_iff (hU : Set.InjOn key {x | x ∈ U}) (hs : s.Within U) (hx : x ∈ U) :
    z ∈ s.insert x ↔ z = x ∨ z ∈ s :=
  mem_insert fun y hy heq => hU (hs y hy) hx heq

/-- A larger set contains what a smaller one does. -/
theorem contains_mono (h : ∀ x ∈ s, x ∈ t) (hs : s.contains x = true) : t.contains x = true := by
  obtain ⟨y, hy, heq⟩ := contains_eq_true_iff.1 hs
  exact contains_eq_true_iff.2 ⟨y, h y hy, heq⟩

/-- Sets are equal when their formulas have the same numbers, in order. -/
theorem beq_iff : (s == t) = true ↔ s.toList.map key = t.toList.map key := by
  show (s.toList.map key == t.toList.map key) = true ↔ _
  exact beq_iff_eq

theorem beq_refl (s : OrderedSet key) : (s == s) = true := beq_iff.2 rfl

/-- Within a family, lists of formulas with the same numbers are the same. -/
theorem eq_of_map_key_eq (hU : Set.InjOn key {x | x ∈ U}) :
    ∀ {xs ys : List β}, (∀ x ∈ xs, x ∈ U) → (∀ y ∈ ys, y ∈ U) → xs.map key = ys.map key → xs = ys
  | [], ys, _, _, h => (List.map_eq_nil_iff.1 h.symm).symm
  | x :: xs, [], _, _, h => by cases h
  | x :: xs, y :: ys, hx, hy, h => by
    obtain ⟨hhead, htail⟩ := List.cons.inj h
    have hxy : x = y := hU (hx x List.mem_cons_self) (hy y List.mem_cons_self) hhead
    rw [hxy, eq_of_map_key_eq hU (fun z hz => hx z (List.mem_cons_of_mem _ hz))
      (fun z hz => hy z (List.mem_cons_of_mem _ hz)) htail]

/-- Sets with the same keys are the same. -/
theorem eq_of_beq (hU : Set.InjOn key {x | x ∈ U}) (hs : s.Within U) (ht : t.Within U)
    (h : (s == t) = true) : s = t := by
  have hlist : s.toList = t.toList := eq_of_map_key_eq hU hs ht (beq_iff.1 h)
  cases s
  cases t
  congr

/-- Placing a formula whose number is new makes the list one longer. -/
theorem length_place (xs : List β) (hx : ∀ y ∈ xs, key y ≠ key x) :
    (place key x xs).length = xs.length + 1 := by
  induction xs with
  | nil => rfl
  | cons y ys ih =>
    unfold place
    split
    · rfl
    · rw [if_neg fun heq => hx y List.mem_cons_self heq.symm, List.length_cons,
        ih fun z hz => hx z (List.mem_cons_of_mem _ hz), List.length_cons]

/-- A new element makes a set larger by one. -/
theorem size_insert (hU : Set.InjOn key {x | x ∈ U}) (hs : s.Within U) (hx : x ∈ U)
    (hnew : x ∉ s) : (s.insert x).size = s.size + 1 := by
  apply length_place
  intro y hy heq
  rw [hU (hs y hy) hx heq] at hy
  exact hnew hy

/-- A set lists every formula once. -/
theorem nodup_toList (s : OrderedSet key) : s.toList.Nodup := by
  refine s.ascending.imp (S := fun a b => a ≠ b) fun {a b} hlt heq => ?_
  rw [heq] at hlt
  exact absurd hlt (lt_irrefl _)

/-- A set is not larger than a list that has all its elements. -/
theorem size_le (hs : s.Within U) : s.size ≤ U.length :=
  (List.subperm_of_subset s.nodup_toList hs).length_le

/-! ## §2. The least element -/

/-- Nothing can be taken from a set just when it is empty. -/
theorem popLeast?_eq_none_iff : s.popLeast? = none ↔ ∀ x, x ∉ s := by
  obtain ⟨xs, hxs⟩ := s
  cases xs with
  | nil => exact ⟨fun _ _ => List.not_mem_nil, fun _ => rfl⟩
  | cons x xs =>
    constructor
    · intro h
      cases h
    · intro h
      exact absurd List.mem_cons_self (h x)

/-- What is split off is less than all that is left. -/
theorem popLeast?_eq_some (h : s.popLeast? = some (x, t)) :
    (∀ z, z ∈ s ↔ z = x ∨ z ∈ t) ∧ ∀ z ∈ t, key x < key z := by
  obtain ⟨xs, hxs⟩ := s
  cases xs with
  | nil => cases h
  | cons y ys =>
    obtain ⟨rfl, rfl⟩ : y = x ∧ ⟨ys, (List.pairwise_cons.1 hxs).2⟩ = t := by
      simpa [popLeast?] using h
    exact ⟨fun z => List.mem_cons, (List.pairwise_cons.1 hxs).1⟩

theorem mem_ofList_singleton : z ∈ (ofList [x] : OrderedSet key) ↔ z = x := List.mem_singleton

end OrderedSet

/-! ## §3. Walks through a formula -/

variable {α : Type}

namespace Formula

variable {U : List (Formula α)} {f g : Formula α} {gs met met' : List (Formula α)}

/-- The operands that the tableau visits are all of them, in another order. -/
theorem mem_tableauOperands : g ∈ f.tableauOperands ↔ g ∈ f.operands := by
  cases f with
  | binary _ op _ _ =>
    cases op with
    | release => simp [tableauOperands, operands, or_comm]
    | _ => exact Iff.rfl
  | _ => exact Iff.rfl

/-- From operands upwards. -/
theorem tableauOperands_induction {P : Formula α → Prop}
    (h : ∀ f, (∀ g ∈ f.tableauOperands, P g) → P f) (f : Formula α) : P f := by
  have hleaf (f : Formula α) (hops : f.operands = []) : P f :=
    h f fun g hg => by rw [mem_tableauOperands, hops] at hg; cases hg
  induction f with
  | tt | ff | prop => exact hleaf _ rfl
  | negProp id propId atom =>
    apply h
    intro g hg
    obtain rfl := List.mem_singleton.1 hg
    exact hleaf _ rfl
  | next id g ih =>
    apply h
    intro k hk
    obtain rfl := List.mem_singleton.1 hk
    exact ih
  | binary id op l r ihl ihr =>
    apply h
    intro g hg
    have hg : g = l ∨ g = r := by simpa [operands] using mem_tableauOperands.1 hg
    rcases hg with rfl | rfl
    · exact ihl
    · exact ihr

/-- A formula that is new is put in front, then its operands are walked through. -/
theorem meet_eq (f : Formula α) (met : List (Formula α)) :
    f.meet met = if met.any f.same then met
      else f.tableauOperands.foldl (fun met g => g.meet met) (f :: met) := by
  cases f with
  | binary _ op _ _ => cases op <;> rfl
  | _ => rfl

/-- Walking through `f` leads from `met` to `met'`: nothing is lost, `f` is
    there, and what is new is of the family and has its operands there. -/
structure Meets (U : List (Formula α)) (f : Formula α) (met met' : List (Formula α)) : Prop where
  keeps : ∀ g ∈ met, g ∈ met'
  self : f ∈ met'
  fresh : ∀ g ∈ met', g ∈ met ∨ (g ∈ U ∧ ∀ h ∈ g.operands, h ∈ met')

/-- Whether a formula has been met is decided by its number. -/
theorem any_same_iff (hU : Family U) (hf : f ∈ U) (hmet : ∀ g ∈ met, g ∈ U) :
    met.any f.same = true ↔ f ∈ met := by
  rw [List.any_eq_true]
  constructor
  · rintro ⟨g, hg, hsame⟩
    rwa [hU.injOn hf (hmet g hg) (same_iff.1 hsame)]
  · intro h
    exact ⟨f, h, same_iff.2 rfl⟩

theorem Meets.refl (hf : f ∈ met) : Meets U f met met :=
  ⟨fun _ hg => hg, hf, fun _ hg => .inl hg⟩

/-- A walk meets only formulas of the family. -/
theorem Meets.within (h : Meets U f met met') (hmet : ∀ g ∈ met, g ∈ U) : ∀ g ∈ met', g ∈ U := by
  intro g hg
  rcases h.fresh g hg with hg | ⟨hg, -⟩
  · exact hmet g hg
  · exact hg

/-- Walking through operands one after the other. -/
theorem foldl_meets (hgs : ∀ g ∈ gs, g ∈ U)
    (heach : ∀ g ∈ gs, ∀ met : List (Formula α), (∀ k ∈ met, k ∈ U) → Meets U g met (g.meet met))
    (hmet : ∀ k ∈ met, k ∈ U) :
    (∀ k ∈ met, k ∈ gs.foldl (fun met g => g.meet met) met)
      ∧ (∀ g ∈ gs, g ∈ gs.foldl (fun met g => g.meet met) met)
      ∧ ∀ k ∈ gs.foldl (fun met g => g.meet met) met, k ∈ met
          ∨ (k ∈ U ∧ ∀ h ∈ k.operands, h ∈ gs.foldl (fun met g => g.meet met) met) := by
  induction gs generalizing met with
  | nil => exact ⟨fun _ hk => hk, List.forall_mem_nil _, fun _ hk => .inl hk⟩
  | cons g gs ih =>
    obtain ⟨hg, hgs⟩ := List.forall_mem_cons.1 hgs
    obtain ⟨hfirst, heach⟩ := List.forall_mem_cons.1 heach
    have hfirst := hfirst met hmet
    -- What is fresh was met at the first formula or at the others.
    obtain ⟨hkeeps, hrest, hfresh⟩ := ih hgs heach (hfirst.within hmet)
    refine ⟨fun k hk => hkeeps k (hfirst.keeps k hk),
      List.forall_mem_cons.2 ⟨hkeeps g hfirst.self, hrest⟩, ?_⟩
    intro k hk
    rcases hfresh k hk with hk | hk
    · rcases hfirst.fresh k hk with hk | ⟨hkU, hops⟩
      · exact .inl hk
      · exact .inr ⟨hkU, fun h hh => hkeeps h (hops h hh)⟩
    · exact .inr hk

/-- Walking through a formula of the family meets what it should. -/
theorem meet_meets (hU : Family U) (hf : f ∈ U) (hmet : ∀ g ∈ met, g ∈ U) :
    Meets U f met (f.meet met) := by
  induction f using tableauOperands_induction generalizing met with
  | h f ih =>
    rw [meet_eq]
    split
    next h => exact .refl ((any_same_iff hU hf hmet).1 h)
    next =>
      -- the operands are in the family, and met after the formula
      have hops : ∀ g ∈ f.tableauOperands, g ∈ U :=
        fun g hg => hU.operand_mem f hf g (mem_tableauOperands.1 hg)
      obtain ⟨hkeeps, hall, hfresh⟩ := foldl_meets hops (fun g hg met => ih g hg (hops g hg))
        (List.forall_mem_cons.2 ⟨hf, hmet⟩)
      refine ⟨fun k hk => hkeeps k (List.mem_cons_of_mem _ hk), hkeeps f List.mem_cons_self, ?_⟩
      intro k hk
      rcases hfresh k hk with hk | hk
      · rcases List.mem_cons.1 hk with rfl | hk
        · exact .inr ⟨hf, fun g hg => hall g (mem_tableauOperands.2 hg)⟩
        · exact .inl hk
      · exact .inr hk

/-- The subformulas of a formula are of its family, the formula is among them,
    and they are closed under operands. -/
theorem subformulas_meets (hU : Family U) (hf : f ∈ U) : Meets U f [] (f.meet []) :=
  meet_meets hU hf (List.forall_mem_nil _)

theorem self_mem_subformulas (hU : Family U) (hf : f ∈ U) : f ∈ f.subformulas :=
  List.mem_reverse.2 (subformulas_meets hU hf).self

/-- The subformulas of a formula of the family belong to it. -/
theorem mem_of_mem_subformulas (hU : Family U) (hf : f ∈ U) (hg : g ∈ f.subformulas) : g ∈ U :=
  (subformulas_meets hU hf).within (fun _ h => absurd h List.not_mem_nil) g (List.mem_reverse.1 hg)

/-- The subformulas of a formula are a family. -/
theorem Family.subformulas (hU : Family U) (hf : f ∈ U) : Family f.subformulas := by
  refine ⟨?_, ?_, ?_⟩
  · intro g hg h hh hid
    exact hU.injOn (mem_of_mem_subformulas hU hf hg) (mem_of_mem_subformulas hU hf hh) hid
  · intro g hg h hh
    rcases (subformulas_meets hU hf).fresh g (List.mem_reverse.1 hg) with hg | ⟨-, hops⟩
    · exact absurd hg List.not_mem_nil
    · exact List.mem_reverse.2 (hops h hh)
  · intro g hg h hh
    exact hU.operand_lt g (mem_of_mem_subformulas hU hf hg) h hh

end Formula
end LinearTime
