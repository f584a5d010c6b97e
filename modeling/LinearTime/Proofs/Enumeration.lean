/-
  LinearTime.Proofs.Enumeration — subformulas one after the other.

  The tree of a formula may be far larger than the number of its subformulas,
  since operands are shared.  Three ways to list the subformulas give the same:

      preorder     every node of the tree, of equal ones only the first kept
      meet         a recursion that turns back at what was met before
      Traversal    a stack of what is still to be looked at, one turn at a time

  The last two skip a formula that turns up again together with all that is
  below it, and the traversal cannot know whether that has been listed by then.
  It has: a formula never turns up below itself, so the first occurrence has
  been worked off when the next one is reached.  In terms of numbers, which grow
  from operands upwards: whatever was met and is not above the formula at hand
  was met with its whole tree.

  Main results:
    * `meet_eq_foldl` — the recursion keeps first occurrences.
    * `Traversal.collect?_start` — the traversal comes to its end, within a
      number of turns linear in that of the subformulas.
    * `Workspace.enumeration_is_deduplicated_preorder` — the formulas of a
      session, and the numbers of their untils.
-/

import LinearTime.Tableau.Basic
import LinearTime.Proofs.Marks
import LinearTime.Proofs.Obligations

namespace LinearTime

variable {α : Type}

/-! ## §1. Trees -/

namespace Formula

variable {f g k : Formula α} {fs gs met : List (Formula α)} {U : List (Formula α)}

/-- All nodes of the tree: a node, then the trees of its operands in tableau order. -/
def preorder : Formula α → List (Formula α)
  | f@(tt _) | f@(ff _) | f@(prop _ _) => [f]
  | f@(negProp _ propId atom) => [f, prop propId atom]
  | f@(next _ g) => f :: g.preorder
  | f@(binary _ .release l r) => f :: (r.preorder ++ l.preorder)
  | f@(binary _ _ l r) => f :: (l.preorder ++ r.preorder)

theorem length_tableauOperands_le (f : Formula α) : f.tableauOperands.length ≤ 2 := by
  cases f with
  | binary _ op _ _ => cases op <;> exact le_refl 2
  | _ => simp [tableauOperands, operands]

/-- The tree of a formula is the formula and then the trees of its operands. -/
theorem preorder_eq (f : Formula α) :
    f.preorder = f :: f.tableauOperands.flatMap preorder := by
  cases f with
  | binary _ op _ _ => cases op <;> simp [preorder, tableauOperands, operands]
  | _ => simp [preorder, tableauOperands, operands]

/-- These are all nodes: the size counts them. -/
theorem length_preorder (f : Formula α) : f.preorder.length = f.size := by
  induction f with
  | tt | ff | prop | negProp => rfl
  | next id g ih => simp [preorder, size, ih]
  | binary id op l r ihl ihr =>
    cases op <;> simp [preorder, size, ihl, ihr, Nat.add_comm]

/-- What is in the tree of a formula is the formula itself or below an operand. -/
theorem mem_preorder_iff : k ∈ f.preorder ↔ k = f ∨ ∃ g ∈ f.tableauOperands, k ∈ g.preorder := by
  rw [preorder_eq, List.mem_cons, List.mem_flatMap]

/-- Trees of nodes are within the tree. -/
theorem mem_preorder_trans (hg : g ∈ f.preorder) (hk : k ∈ g.preorder) : k ∈ f.preorder := by
  induction f using tableauOperands_induction with
  | h f ih =>
    rcases mem_preorder_iff.1 hg with rfl | ⟨op, hop, hg⟩
    · exact hk
    · exact mem_preorder_iff.2 (.inr ⟨op, hop, ih op hop hg⟩)

/-- A family has the whole tree of each of its formulas. -/
theorem Family.mem_of_mem_preorder (hU : Family U) (hf : f ∈ U) (hk : k ∈ f.preorder) :
    k ∈ U := by
  induction f using tableauOperands_induction with
  | h f ih =>
    rcases mem_preorder_iff.1 hk with rfl | ⟨op, hop, hk⟩
    · exact hf
    · exact ih op hop (hU.operand_mem f hf op (mem_tableauOperands.1 hop)) hk

/-! ## §2. First occurrences -/

/-- Puts a formula in front unless it was met before. -/
def meetNode (met : List (Formula α)) (g : Formula α) : List (Formula α) :=
  if met.any g.same then met else g :: met

theorem meetNode_of_mem (hg : g ∈ met) : meetNode met g = met :=
  if_pos (List.any_eq_true.2 ⟨g, hg, same_iff.2 rfl⟩)

/-- Dropping repetitions from a list is a fold that adds what was not met before. -/
theorem loop_eq_foldl (gs met : List (Formula α)) :
    List.eraseDupsBy.loop same gs met = (gs.foldl meetNode met).reverse := by
  induction gs generalizing met with
  | nil => rfl
  | cons g gs ih =>
    unfold List.eraseDupsBy.loop meetNode
    rw [List.foldl_cons]
    cases hany : met.any g.same with
    | true => exact ih met
    | false => exact ih (g :: met)

/-- What was met, the latest first, are the first occurrences. -/
theorem eraseDupsBy_eq (gs : List (Formula α)) :
    gs.eraseDupsBy same = (gs.foldl meetNode []).reverse := loop_eq_foldl gs []

/-- Nothing is added if all was met before. -/
theorem foldl_meetNode_of_subset (h : ∀ g ∈ gs, g ∈ met) : gs.foldl meetNode met = met := by
  induction gs with
  | nil => rfl
  | cons g gs ih =>
    rw [List.foldl_cons, meetNode_of_mem (h g List.mem_cons_self)]
    exact ih fun k hk => h k (List.mem_cons_of_mem _ hk)

theorem nodup_foldl_meetNode (hmet : met.Nodup) : (gs.foldl meetNode met).Nodup := by
  induction gs generalizing met with
  | nil => exact hmet
  | cons g gs ih =>
    apply ih
    unfold meetNode
    split
    next => exact hmet
    next hnew =>
      refine List.nodup_cons.2 ⟨fun hg => hnew ?_, hmet⟩
      exact List.any_eq_true.2 ⟨g, hg, same_iff.2 rfl⟩

/-- A formula of the family that was not met before is added. -/
theorem meetNode_of_not_mem (hU : Family U) (hg : g ∈ U) (hmet : ∀ k ∈ met, k ∈ U) (h : g ∉ met) :
    meetNode met g = g :: met :=
  if_neg fun hany => h ((any_same_iff hU hg hmet).1 hany)

/-- What was met in the end was met before or is on the list. -/
theorem mem_foldl_meetNode (hU : Family U) (hgs : ∀ g ∈ gs, g ∈ U) (hmet : ∀ g ∈ met, g ∈ U) :
    k ∈ gs.foldl meetNode met ↔ k ∈ gs ∨ k ∈ met := by
  induction gs generalizing met with
  | nil => simp
  | cons g gs ih =>
    obtain ⟨hg, hgs⟩ := List.forall_mem_cons.1 hgs
    rw [List.foldl_cons, List.mem_cons]
    -- a formula that was met is not met again
    by_cases hmem : g ∈ met
    · rw [meetNode_of_mem hmem, ih hgs hmet]
      constructor
      · exact fun h => h.imp_left .inr
      · rintro ((rfl | hk) | hk)
        · exact .inr hmem
        · exact .inl hk
        · exact .inr hk
    · rw [meetNode_of_not_mem hU hg hmet hmem, ih hgs (List.forall_mem_cons.2 ⟨hg, hmet⟩),
        List.mem_cons]
      tauto

/-- Leaving out formulas before or after repeated ones are dropped is the same. -/
theorem filter_foldl_meetNode (hU : Family U) (p : Formula α → Bool) (hgs : ∀ g ∈ gs, g ∈ U)
    (hmet : ∀ g ∈ met, g ∈ U) :
    (gs.foldl meetNode met).filter p = (gs.filter p).foldl meetNode (met.filter p) := by
  induction gs generalizing met with
  | nil => rfl
  | cons g gs ih =>
    obtain ⟨hg, hgs⟩ := List.forall_mem_cons.1 hgs
    rw [List.foldl_cons]
    -- What was met before is met before among the filtered ones too.
    by_cases hmem : g ∈ met
    · rw [meetNode_of_mem hmem, ih hgs hmet]
      cases hp : p g with
      | true =>
        rw [List.filter_cons_of_pos hp, List.foldl_cons,
          meetNode_of_mem (List.mem_filter.2 ⟨hmem, hp⟩)]
      | false => rw [List.filter_cons_of_neg (by simp [hp])]
    · rw [meetNode_of_not_mem hU hg hmet hmem, ih hgs (List.forall_mem_cons.2 ⟨hg, hmet⟩)]
      cases hp : p g with
      | true =>
        have hkept : ∀ k ∈ met.filter p, k ∈ U := fun k hk => hmet k (List.mem_filter.1 hk).1
        have hnew : g ∉ met.filter p := fun h => hmem (List.mem_filter.1 h).1
        rw [List.filter_cons_of_pos hp, List.filter_cons_of_pos hp, List.foldl_cons,
          meetNode_of_not_mem hU hg hkept hnew]
      | false => rw [List.filter_cons_of_neg (by simp [hp]), List.filter_cons_of_neg (by simp [hp])]

/-- First occurrences are all different. -/
theorem nodup_eraseDupsBy (gs : List (Formula α)) : (gs.eraseDupsBy same).Nodup := by
  rw [eraseDupsBy_eq, List.nodup_reverse]
  exact nodup_foldl_meetNode .nil

/-- Dropping repetitions loses no formula of a family. -/
theorem mem_eraseDupsBy (hU : Family U) (hgs : ∀ g ∈ gs, g ∈ U) :
    k ∈ gs.eraseDupsBy same ↔ k ∈ gs := by
  rw [eraseDupsBy_eq, List.mem_reverse, mem_foldl_meetNode hU hgs (List.forall_mem_nil _)]
  simp

/-- Repetitions may be dropped before or after choosing some of the formulas. -/
theorem filter_eraseDupsBy (hU : Family U) (p : Formula α → Bool) (hgs : ∀ g ∈ gs, g ∈ U) :
    (gs.eraseDupsBy same).filter p = (gs.filter p).eraseDupsBy same := by
  rw [eraseDupsBy_eq, eraseDupsBy_eq, List.filter_reverse,
    filter_foldl_meetNode hU p hgs (List.forall_mem_nil _)]
  rfl

/-! ## §3. The recursion -/

/-- Whatever was met and has a number below `n` was met with its whole tree. -/
def ClosedBelow (n : Nat) (met : List (Formula α)) : Prop :=
  ∀ g ∈ met, g.id < n → ∀ k ∈ g.preorder, k ∈ met

theorem ClosedBelow.mono {n m : Nat} (h : ClosedBelow n met) (hle : m ≤ n) : ClosedBelow m met :=
  fun g hg hlt => h g hg (hlt.trans_le hle)

/-- Going through a whole tree leaves no tree unfinished. -/
theorem ClosedBelow.foldl_preorder {n : Nat} (h : ClosedBelow n met) (hU : Family U) (hf : f ∈ U)
    (hmet : ∀ g ∈ met, g ∈ U) : ClosedBelow n (f.preorder.foldl meetNode met) := by
  intro g hg hlt k hk
  have htree : ∀ g ∈ f.preorder, g ∈ U := fun g => hU.mem_of_mem_preorder hf
  rw [mem_foldl_meetNode hU htree hmet] at hg ⊢
  rcases hg with hg | hg
  · exact .inl (mem_preorder_trans hg hk)
  · exact .inr (h g hg hlt k hk)

/-- What is met on the way through a tree is in the family. -/
theorem within_foldl_preorder (hU : Family U) (hf : f ∈ U) (hmet : ∀ g ∈ met, g ∈ U) :
    ∀ g ∈ f.preorder.foldl meetNode met, g ∈ U := by
  intro g hg
  rcases (mem_foldl_meetNode hU (fun g => hU.mem_of_mem_preorder hf) hmet).1 hg with hg | hg
  · exact hU.mem_of_mem_preorder hf hg
  · exact hmet g hg

/-- The recursion goes through operands as through their trees. -/
theorem foldl_meet_eq {n : Nat} (hU : Family U) (hgs : ∀ g ∈ gs, g ∈ U ∧ g.id < n)
    (heach : ∀ g ∈ gs, ∀ met : List (Formula α), (∀ k ∈ met, k ∈ U) → ClosedBelow (g.id + 1) met →
      g.meet met = g.preorder.foldl meetNode met)
    (hmet : ∀ k ∈ met, k ∈ U) (hclosed : ClosedBelow n met) :
    gs.foldl (fun met g => g.meet met) met = (gs.flatMap preorder).foldl meetNode met := by
  induction gs generalizing met with
  | nil => rfl
  | cons g gs ih =>
    obtain ⟨hg, hlt⟩ := hgs g List.mem_cons_self
    -- the first one, then the others, with more that was met
    rw [List.foldl_cons, heach g List.mem_cons_self met hmet (hclosed.mono hlt),
      List.flatMap_cons, List.foldl_append]
    apply ih
    · exact fun k hk => hgs k (List.mem_cons_of_mem _ hk)
    · exact fun k hk => heach k (List.mem_cons_of_mem _ hk)
    · exact within_foldl_preorder hU hg hmet
    · exact hclosed.foldl_preorder hU hg hmet

/-- The recursion keeps the first occurrences in the tree. -/
theorem meet_eq_foldl (hU : Family U) (hf : f ∈ U) (hmet : ∀ k ∈ met, k ∈ U)
    (hclosed : ClosedBelow (f.id + 1) met) : f.meet met = f.preorder.foldl meetNode met := by
  induction f using tableauOperands_induction generalizing met with
  | h f ih =>
    rw [meet_eq, preorder_eq, List.foldl_cons]
    split
    next hany =>
      have hself : f ∈ met := (any_same_iff hU hf hmet).1 hany
      have htree : ∀ k ∈ f.tableauOperands.flatMap preorder, k ∈ met := by
        intro k hk
        apply hclosed f hself (Nat.lt_succ_self _)
        rw [preorder_eq]
        exact List.mem_cons_of_mem _ hk
      rw [meetNode_of_mem hself, foldl_meetNode_of_subset htree]
    next hany =>
      have hops : ∀ g ∈ f.tableauOperands, g ∈ U ∧ g.id < f.id := fun g hg =>
        ⟨hU.operand_mem f hf g (mem_tableauOperands.1 hg),
          hU.operand_lt f hf g (mem_tableauOperands.1 hg)⟩
      have hnew : meetNode met f = f :: met := if_neg hany
      rw [hnew]
      apply foldl_meet_eq hU hops (fun g hg met => ih g hg (hops g hg).1)
        (List.forall_mem_cons.2 ⟨hf, hmet⟩)
      -- the formula itself is still to be worked off, but it is above its operands
      intro g hg hlt k hk
      rcases List.mem_cons.1 hg with rfl | hg
      · exact absurd hlt (lt_irrefl _)
      · exact List.mem_cons_of_mem _ (hclosed g hg (hlt.trans (Nat.lt_succ_self _)) k hk)

/-- The recursion that turns back lists the tree without its repetitions. -/
theorem subformulas_eq (hU : Family U) (hf : f ∈ U) :
    f.subformulas = f.preorder.eraseDupsBy same := by
  unfold subformulas
  rw [eraseDupsBy_eq, meet_eq_foldl hU hf (List.forall_mem_nil _) (List.forall_mem_nil _)]

/-! ## §4. The traversal -/

/-- A traversal under way: the numbers given out so far, and what is still to be
    looked at, the next one first. -/
structure Traversal (α : Type) where
  seen : List Nat
  pending : List (Formula α)

namespace Traversal

/-- The traversal of a formula, before the first turn. -/
def start (f : Formula α) : Traversal α := ⟨[], [f]⟩

/-- One turn: what it gives out, if anything, and what is left to do. There are no
    turns when nothing is left to be looked at. -/
def turn? : Traversal α → Option (Option (Formula α) × Traversal α)
  | ⟨_, []⟩ => none
  | ⟨seen, f :: rest⟩ =>
    if seen.contains f.id then some (none, ⟨seen, rest⟩)
    else some (some f, ⟨f.id :: seen, f.tableauOperands ++ rest⟩)

/-- All that is given out, if the traversal is at its end before `n` turns are done. -/
def collect? : Nat → Traversal α → Option (List (Formula α))
  | 0, _ => none
  | n + 1, t =>
    match t.turn? with
    | none => some []
    | some (out, t) => (collect? n t).map (out.toList ++ ·)

/-- The traversal that has given out some formulas and has others before it. -/
def after (met fs : List (Formula α)) : Traversal α := ⟨met.map id, fs⟩

/-- One turn of the traversal: the formula on top is skipped or given, and in the second case
    its operands take its place. -/
theorem turn?_after (met rest : List (Formula α)) (f : Formula α) :
    (after met (f :: rest)).turn?
      = if met.any f.same then some (none, after met rest)
        else some (some f, after (f :: met) (f.tableauOperands ++ rest)) := by
  have hseen : (met.map id).contains f.id = met.any f.same := by
    rw [List.contains_eq_any_beq, List.any_map]
    rfl
  show (if (met.map id).contains f.id then _ else _) = _
  rw [hseen]
  rfl

/-- A formula that was met before is taken from the stack and nothing else happens. -/
theorem collect?_skip (n : Nat) (rest : List (Formula α)) (h : met.any f.same = true) :
    collect? (n + 1) (after met (f :: rest)) = collect? n (after met rest) := by
  rw [collect?, turn?_after, if_pos h]
  show (collect? n (after met rest)).map (fun out => out) = _
  rw [Option.map_id']

/-- A formula that was not met before is listed, and its operands are to be looked at next. -/
theorem collect?_visit (n : Nat) (rest : List (Formula α)) (h : ¬ met.any f.same = true) :
    collect? (n + 1) (after met (f :: rest))
      = (collect? n (after (f :: met) (f.tableauOperands ++ rest))).map (f :: ·) := by
  rw [collect?, turn?_after, if_neg h]
  rfl

/-- Having met `met`, turns work off `fs`, whatever lies below them, and give out
    `out`. -/
def Gives (met fs out : List (Formula α)) : Prop :=
  ∃ turns ≤ 2 * out.length + fs.length, ∀ n rest,
    collect? (n + turns) (after met (fs ++ rest))
      = (collect? n (after (out.reverse ++ met) rest)).map (out ++ ·)

theorem Gives.nil (met : List (Formula α)) : Gives met [] [] := by
  refine ⟨0, Nat.zero_le _, fun n rest => ?_⟩
  show collect? n (after met rest) = (collect? n (after met rest)).map fun out => out
  rw [Option.map_id']

/-- The traversal works off one formula with all that is below it before the next one. -/
theorem Gives.cons {out out' : List (Formula α)} (h : Gives met [f] out)
    (hrest : Gives (out.reverse ++ met) fs out') : Gives met (f :: fs) (out ++ out') := by
  obtain ⟨turns, hle, h⟩ := h
  obtain ⟨turns', hle', h'⟩ := hrest
  refine ⟨turns' + turns, ?_, fun n rest => ?_⟩
  · simp only [List.length_append, List.length_cons, List.length_nil] at *
    omega
  · rw [← Nat.add_assoc]
    refine (h (n + turns') (fs ++ rest)).trans ?_
    rw [h', Option.map_map, List.reverse_append, List.append_assoc]
    congr 1
    funext more
    exact (List.append_assoc out out' more).symm

theorem Gives.skip (h : met.any f.same = true) : Gives met [f] [] := by
  refine ⟨1, le_refl 1, fun n rest => ?_⟩
  refine (collect?_skip n rest h).trans ?_
  show _ = (collect? n (after met rest)).map fun out => out
  rw [Option.map_id']

/-- A new formula is listed before what its operands give. -/
theorem Gives.visit {out : List (Formula α)} (h : ¬ met.any f.same = true)
    (hops : Gives (f :: met) f.tableauOperands out) : Gives met [f] (f :: out) := by
  obtain ⟨turns, hle, hops⟩ := hops
  refine ⟨turns + 1, ?_, fun n rest => ?_⟩
  · have := f.length_tableauOperands_le
    simp only [List.length_cons, List.length_nil]
    omega
  · refine (collect?_visit (n + turns) rest h).trans ?_
    rw [hops, Option.map_map, List.reverse_cons, List.append_assoc]
    rfl

/-- The turns that work off a formula give out what the recursion newly meets. -/
theorem exists_gives (f : Formula α) :
    ∀ met, ∃ out, f.meet met = out.reverse ++ met ∧ Gives met [f] out := by
  -- Operands are worked off one after the other, each from what was met until then.
  have hlist (gs : List (Formula α))
      (ih : ∀ g ∈ gs, ∀ met, ∃ out, g.meet met = out.reverse ++ met ∧ Gives met [g] out) :
      ∀ met, ∃ out, gs.foldl (fun met g => g.meet met) met = out.reverse ++ met
        ∧ Gives met gs out := by
    induction gs with
    | nil => exact fun met => ⟨[], rfl, .nil met⟩
    | cons g gs ihgs =>
      intro met
      obtain ⟨ihg, ihrest⟩ := List.forall_mem_cons.1 ih
      obtain ⟨out, hout, hgives⟩ := ihg met
      obtain ⟨out', hout', hgives'⟩ := ihgs ihrest (g.meet met)
      rw [hout] at hgives'
      refine ⟨out ++ out', ?_, hgives.cons hgives'⟩
      rw [List.foldl_cons, hout', hout, List.reverse_append, List.append_assoc]
  induction f using tableauOperands_induction with
  | h f ih =>
    intro met
    rw [meet_eq]
    split
    next hany => exact ⟨[], rfl, .skip hany⟩
    next hnew =>
      obtain ⟨out, hout, hgives⟩ := hlist f.tableauOperands ih (f :: met)
      refine ⟨f :: out, ?_, .visit hnew hgives⟩
      rw [hout, List.reverse_cons, List.append_assoc]
      rfl

/-- The traversal comes to its end and gives out the subformulas, one a turn; each of
    them puts two formulas at most before it. -/
theorem collect?_start (f : Formula α) {n : Nat} (hn : 2 * f.subformulas.length + 2 ≤ n) :
    collect? n (start f) = some f.subformulas := by
  obtain ⟨out, hout, turns, hle, hgives⟩ := exists_gives f []
  have hsub : f.subformulas = out := by
    unfold subformulas
    rw [hout, List.append_nil, List.reverse_reverse]
  rw [hsub] at hn ⊢
  obtain ⟨m, rfl⟩ : ∃ m, n = m + 1 + turns := by
    refine ⟨n - 1 - turns, ?_⟩
    simp only [List.length_singleton] at hle
    omega
  refine (hgives (m + 1) []).trans ?_
  show some (out ++ []) = some out
  rw [List.append_nil]

end Traversal
end Formula

/-! ## §5. Untils -/

open Formula

variable {f u : Formula α} {U : List (Formula α)}

namespace Tableau

/-- Untils are numbered by their first occurrences in the tree. -/
theorem untilsOf_eq (hU : Family U) (hf : f ∈ U) :
    untilsOf f = (f.preorder.filter (·.isStrongUntil)).eraseDupsBy same := by
  unfold untilsOf
  rw [subformulas_eq hU hf, filter_eraseDupsBy hU _ fun g => hU.mem_of_mem_preorder hf]

/-- Each until of the tree has one number. -/
theorem existsUnique_untilsOf (hU : Family U) (hf : f ∈ U) (hu : u ∈ f.preorder)
    (huntil : u.isStrongUntil = true) : ∃! i : Nat, (untilsOf f)[i]? = some u := by
  have htree : ∀ g ∈ f.preorder.filter (·.isStrongUntil), g ∈ U :=
    fun g hg => hU.mem_of_mem_preorder hf (List.mem_filter.1 hg).1
  rw [untilsOf_eq hU hf]
  have hmem := (mem_eraseDupsBy hU htree).2 (List.mem_filter.2 ⟨hu, huntil⟩)
  obtain ⟨i, hi⟩ := List.mem_iff_getElem?.1 hmem
  refine ⟨i, hi, fun j hj => ?_⟩
  obtain ⟨hlt, -⟩ := List.getElem?_eq_some_iff.1 hj
  exact (List.getElem?_inj hlt (nodup_eraseDupsBy _)).1 (hj.trans hi.symm)

end Tableau

/-! ## §6. The formulas of a session -/

namespace Workspace

variable [BEq α] {events : List (Event α)} {w : Workspace α}

/-- Whatever was done before, and whatever was forgotten: the traversal of a formula
    comes to its end and gives out the nodes of the tree in preorder, each formula where
    it occurs first and nowhere else; and every until of the tree has one number, by
    its place among these. -/
theorem enumeration_is_deduplicated_preorder (h : Run {} events w) (hf : f ∈ w.formulas) :
    (∀ n, 2 * f.subformulas.length + 2 ≤ n →
        Traversal.collect? n (.start f) = some f.subformulas)
      ∧ f.subformulas = f.preorder.eraseDupsBy same
      ∧ (∀ g ∈ f.preorder, ∀ k ∈ f.preorder, g.same k = true ↔ g = k)
      ∧ Tableau.untilsOf f = (f.preorder.filter (·.isStrongUntil)).eraseDupsBy same
      ∧ ∀ u ∈ f.preorder, u.isStrongUntil = true →
          ∃! i : Nat, (Tableau.untilsOf f)[i]? = some u := by
  have hU : Family w.formulas := h.sound.numbered.family
  refine ⟨fun n => Traversal.collect?_start f, subformulas_eq hU hf, ?_, Tableau.untilsOf_eq hU hf,
    fun u => Tableau.existsUnique_untilsOf hU hf⟩
  intro g hg k hk
  -- numbers tell formulas of a history apart
  rw [same_iff]
  constructor
  · exact hU.injOn (hU.mem_of_mem_preorder hf hg) (hU.mem_of_mem_preorder hf hk)
  · rintro rfl
    rfl

/-- `( p U ( p U q ) ) /\ ( q W ( p U q ) )` has eleven nodes and six subformulas. -/
theorem enumeration_is_deduplicated_preorder_shared :
    let p : Formula String := .prop 0 "p"
    let q : Formula String := .prop 1 "q"
    let inner : Formula String := .binary 2 .strongUntil p q
    let outer : Formula String := .binary 3 .strongUntil p inner
    let weak : Formula String := .binary 4 .weakUntil q inner
    let f : Formula String := .binary 5 .conj outer weak
    f.preorder.length = 11
      ∧ (∃ events w, Run {} events w ∧ f ∈ w.formulas)
      ∧ Traversal.collect? 14 (.start f) = some [f, outer, p, inner, q, weak]
      ∧ f.preorder.eraseDupsBy same = [f, outer, p, inner, q, weak]
      ∧ Tableau.untilsOf f = [outer, inner]
      ∧ ∃! i : Nat, (Tableau.untilsOf f)[i]? = some inner := by
  intro p q inner outer weak f
  -- The session is built call by call, sharing `inner`.
  have hinner := run_p_q.step (.call (.binary .strongUntil p q)
    (List.forall_mem_cons.2 ⟨.tail _ (.head _), List.forall_mem_singleton.2 (.head _)⟩))
  have houter := hinner.step (.call (.binary .strongUntil p inner)
    (List.forall_mem_cons.2 ⟨.tail _ (.tail _ (.head _)), List.forall_mem_singleton.2 (.head _)⟩))
  have hweak := houter.step (.call (.binary .weakUntil q inner)
    (List.forall_mem_cons.2
      ⟨.tail _ (.tail _ (.head _)), List.forall_mem_singleton.2 (.tail _ (.head _))⟩))
  have hrun := hweak.step (.call (.binary .conj outer weak)
    (List.forall_mem_cons.2 ⟨.tail _ (.head _), List.forall_mem_singleton.2 (.head _)⟩))
  have hf : f ∈ [f, weak, outer, inner, q, p] := .head _
  obtain ⟨hcollect, hfirsts, -, -, hnumber⟩ := enumeration_is_deduplicated_preorder hrun hf
  have hsub : f.subformulas = [f, outer, p, inner, q, weak] := rfl
  refine ⟨rfl, ⟨_, _, hrun, hf⟩, ?_, hfirsts.symm.trans hsub, rfl, hnumber inner ?_ rfl⟩
  · exact (hcollect 14 (le_refl 14)).trans (congrArg some hsub)
  · exact .tail _ (.tail _ (.tail _ (.head _)))

end Workspace
end LinearTime
