/-
  LinearTime.Proofs.NodeLabels — the labels of a fully grown tableau.

  An entry of a node, with what the node asks for next, is a label: it was
  recorded when a branch from one of its origins was completed, and the branch
  was a completion of what the origin asks for.  So no formula of it is left to
  be unfolded.  Only the first entry of the first node is none; it says that
  the node stands for the start, and nothing is ever added to it.

  Entries have origins, and every node but the first was made by a branch that
  came from a node before it.

  Main results:
    * `Saturated` — nothing is missing from a label, operator by operator.
    * `Traced` — where the nodes come from, `Traced.start`, `Traced.complete`.
    * `final_labels_saturated` — the labels of the tableau of any formula.
-/

import LinearTime.Proofs.GrowthBound
import LinearTime.Proofs.Marks

namespace LinearTime
namespace Tableau

variable {α : Type} {U : List (Formula α)} {t : Tableau α} {b : Branch α} {root : Formula α}
  {now now' later asked : FormulaSet α} {n : Node α} {e : Entry α} {i j o o' : Nat}

/-! ## §1. Saturated labels -/

/-- The formulas are subformulas of the root, none of those of now is plainly
    false, no two contradict each other, and of each that is composed an
    alternative of the expansion law is guaranteed. -/
structure Saturated (root : Formula α) (now later : FormulaSet α) : Prop where
  now_mem : ∀ f ∈ now, f ∈ root.subformulas
  later_mem : ∀ f ∈ later, f ∈ root.subformulas
  ff_not_mem : ∀ id, .ff id ∉ now
  consistent : ∀ i j a c, .prop i a ∈ now → .negProp j i c ∉ now
  conj : ∀ id l r, .binary id .conj l r ∈ now →
    l.guaranteedBy now later = true ∧ r.guaranteedBy now later = true
  disj : ∀ id l r, .binary id .disj l r ∈ now →
    l.guaranteedBy now later = true ∨ r.guaranteedBy now later = true
  next : ∀ id f, .next id f ∈ now → f ∈ later
  strongUntil : ∀ id l r, .binary id .strongUntil l r ∈ now →
    r.guaranteedBy now later = true
      ∨ (l.guaranteedBy now later = true ∧ .binary id .strongUntil l r ∈ later)
  weakUntil : ∀ id l r, .binary id .weakUntil l r ∈ now →
    r.guaranteedBy now later = true
      ∨ (l.guaranteedBy now later = true ∧ .binary id .weakUntil l r ∈ later)
  release : ∀ id l r, .binary id .release l r ∈ now →
    r.guaranteedBy now later = true
      ∧ (l.guaranteedBy now later = true ∨ .binary id .release l r ∈ later)

/-- What completes a branch is saturated. -/
theorem Saturated.of_labels (h : Labels root.subformulas asked now later) :
    Saturated root now later where
  now_mem := h.now_within
  later_mem := h.later_within
  ff_not_mem := h.ff_not_mem
  consistent := h.consistent
  conj id l r hf := (Formula.expands_conj ..).1 (h.expanded _ hf)
  disj id l r hf := ((Formula.expands_disj ..).1 (h.expanded _ hf)).symm
  next id f hf := (Formula.expands_next ..).1 (h.expanded _ hf)
  strongUntil id l r hf := (Formula.expands_strongUntil ..).1 (h.expanded _ hf)
  weakUntil id l r hf := (Formula.expands_weakUntil ..).1 (h.expanded _ hf)
  release id l r hf := by
    rcases (Formula.expands_release ..).1 (h.expanded _ hf) with ⟨hl, hr⟩ | ⟨hr, hlater⟩
    · exact ⟨hr, .inl hl⟩
    · exact ⟨hr, .inr hlater⟩

/-- An entry is a label for what each of its origins asks for. -/
theorem Sound.labels_of_entry (hU : Formula.Family U) (h : t.Sound U) (hn : t.nodes[i]? = some n)
    (he : e ∈ n.entries) (ho : o ∈ e.origins) :
    ∃ m, t.nodes[o]? = some m ∧ Labels U m.later e.now n.later := by
  have hrecords : t.Records o e.now n.later n.pending :=
    ⟨n, List.mem_of_getElem? hn, rfl, rfl, e, he, rfl, ho⟩
  obtain ⟨asked, hasked, hc, -⟩ := h.completion _ _ _ _ hrecords
  have hlabels : Labels U asked e.now n.later := hc.labels hU (later?_within h.within hasked)
  obtain ⟨m, hm, rfl⟩ := Option.map_eq_some_iff.1 hasked
  exact ⟨m, hm, hlabels⟩

/-! ## §2. Entering a node -/

theorem Node.Entered.enter (hU : Formula.Family U) (hn : n.Within U) (hnow : now.Within U)
    (h : n.Entered now' o') : (n.enter now o).Entered now' o' :=
  (Node.entered_enter hU hn hnow).2 (.inl h)

/-- An entry that was not there before has the origin. -/
theorem Node.getElem?_enterOne {es : List (Entry α)}
    (h : (Node.enter.enterOne now o es)[j]? = some e) : es[j]? = some e ∨ o ∈ e.origins := by
  induction es generalizing j with
  | nil =>
    obtain rfl := List.mem_singleton.1 (List.mem_of_getElem? h)
    exact .inr (IndexSet.mem_ofList.2 (List.mem_singleton.2 rfl))
  | cons e' es ih =>
    unfold Node.enter.enterOne at h
    split at h
    -- entered already: only the origin is new
    · cases j with
      | zero =>
        obtain rfl := Option.some.inj h
        exact .inr (IndexSet.mem_insert.2 (.inl rfl))
      | succ j => exact .inl h
    · cases j with
      | zero => exact .inl h
      | succ j => exact ih h

/-! ## §3. Where nodes come from -/

/-- The first node asks for the root, and its first entry has no formulas and no
    origins.  Every other entry has an origin, and every other node was entered
    from a node before it. -/
structure Traced (root : Formula α) (t : Tableau α) : Prop where
  initial : ∃ es, t.nodes[0]? = some ⟨.ofList [root], .empty, ⟨.empty, .empty⟩ :: es⟩
  origin : ∀ (i j : Nat) (n : Node α) (e : Entry α), t.nodes[i]? = some n →
    n.entries[j]? = some e → i ≠ 0 ∨ j ≠ 0 → ∃ o, o ∈ e.origins
  earlier : ∀ (i : Nat) (n : Node α), t.nodes[i]? = some n → i ≠ 0 →
    ∃ now, ∃ o < i, n.Entered now o

theorem Traced.start (merge : Merge) : (start merge root).Traced root := by
  -- there is just the first node
  have hnode {i : Nat} {n : Node α} (hn : (Tableau.start merge root).nodes[i]? = some n) :
      i = 0 ∧ n = ⟨.ofList [root], .empty, [⟨.empty, .empty⟩]⟩ := by
    cases i with
    | zero => exact ⟨rfl, (Option.some.inj hn).symm⟩
    | succ i => cases hn
  refine ⟨⟨[], rfl⟩, ?_, ?_⟩
  · intro i j n e hn he hother
    obtain ⟨rfl, rfl⟩ := hnode hn
    cases j with
    | zero => exact absurd rfl (hother.resolve_left fun h => h rfl)
    | succ j => cases he
  · intro i n hn hi
    exact absurd (hnode hn).1 hi

/-- A branch that postpones the root does not come to the first entry of the first
    node: what is postponed comes from a formula of now. -/
theorem Traced.enter_initial {es : List (Entry α)} (hb : b.Proper U asked)
    (hroot : root ∈ b.later) :
    Node.enter ⟨.ofList [root], .empty, ⟨.empty, .empty⟩ :: es⟩ b.now o
      = ⟨.ofList [root], .empty, ⟨.empty, .empty⟩ :: Node.enter.enterOne b.now o es⟩ := by
  obtain ⟨f, hf, -⟩ := hb.postponed root hroot
  -- so some formula holds now, while the first entry has none
  have hne : ¬ ((.empty : FormulaSet α) == b.now) = true := by
    intro heq
    have hnil : b.now.toList = [] := List.map_eq_nil_iff.1 (OrderedSet.beq_iff.1 heq).symm
    have hmem : f ∈ b.now.toList := hf
    rw [hnil] at hmem
    exact absurd hmem List.not_mem_nil
  have hentries : Node.enter.enterOne b.now o ((⟨.empty, .empty⟩ : Entry α) :: es)
      = ⟨.empty, .empty⟩ :: Node.enter.enterOne b.now o es := by
    rw [Node.enter.enterOne]
    exact if_neg hne
  exact congrArg (Node.mk _ _) hentries

/-- Merging a branch into a node. -/
theorem Traced.modify (hU : Formula.Family U) (h : t.Traced root)
    (hwithin : ∀ n ∈ t.nodes, n.Within U) (hb : b.Proper U asked) (hi : t.nodes[i]? = some n)
    (hlater : n.later = b.later) :
    Traced root { t with nodes := t.nodes.modify i (·.enter b.now b.origin) } := by
  refine ⟨?_, ?_, ?_⟩
  · obtain ⟨es, hzero⟩ := h.initial
    by_cases h0 : i = 0
    · subst h0
      obtain rfl := Option.some.inj (hzero.symm.trans hi)
      -- the branch postpones what the first node asks for, the root
      have hroot : root ∈ b.later := by
        rw [← hlater]
        exact OrderedSet.mem_ofList_singleton.2 rfl
      refine ⟨Node.enter.enterOne b.now b.origin es, ?_⟩
      show (t.nodes.modify 0 _)[0]? = _
      rw [List.getElem?_modify_eq, hzero]
      exact congrArg some (enter_initial hb hroot)
    · exact ⟨es, (List.getElem?_modify_ne _ _ h0).trans hzero⟩
  · intro k j m e hm he hother
    rcases getElem?_modify_some hm with hm | ⟨m', hm', rfl⟩
    · exact h.origin k j m e hm he hother
    · rcases Node.getElem?_enterOne he with he | ho
      · exact h.origin k j m' e hm' he hother
      · exact ⟨b.origin, ho⟩
  · intro k m hm hk
    rcases getElem?_modify_some hm with hm | ⟨m', hm', rfl⟩
    · exact h.earlier k m hm hk
    · obtain ⟨now, o, hlt, hentered⟩ := h.earlier k m' hm' hk
      have hmU : m'.Within U := hwithin m' (List.mem_of_getElem? hm')
      exact ⟨now, o, hlt, hentered.enter hU hmU hb.within.now⟩

/-- Making a branch a new node. -/
theorem Traced.append (h : t.Traced root) (horigin : b.origin < t.nodes.length)
    {p : MarkSet} {work : List (Branch α)} :
    Traced root { t with
      nodes := t.nodes ++ [⟨b.later, p, [⟨b.now, .ofList [b.origin]⟩]⟩], work } := by
  -- the only origin of the new entry is the node that the branch comes from
  have hmem : b.origin ∈ (OrderedSet.ofList [b.origin] : IndexSet) :=
    IndexSet.mem_ofList.2 (List.mem_singleton.2 rfl)
  refine ⟨?_, ?_, ?_⟩
  · obtain ⟨es, hzero⟩ := h.initial
    exact ⟨es, getElem?_concat_of_some hzero _⟩
  · intro k j m e hm he hother
    rcases getElem?_concat_some hm with hm | ⟨-, rfl⟩
    · exact h.origin k j m e hm he hother
    · obtain rfl := List.mem_singleton.1 (List.mem_of_getElem? he)
      exact ⟨b.origin, hmem⟩
  · intro k m hm hk
    rcases getElem?_concat_some hm with hm | ⟨rfl, rfl⟩
    · exact h.earlier k m hm hk
    · exact ⟨b.now, b.origin, horigin, _, List.mem_singleton.2 rfl, rfl, hmem⟩

/-- What completing a branch preserves. -/
theorem Traced.complete (hU : Formula.Family U) (hready : Ready U t asked b)
    (h : t.Traced root) : (t.complete b).Traced root := by
  rcases complete_cases t b with ⟨i, n, hi, hadmits, heq⟩ | ⟨-, heq⟩
  · rw [heq]
    have hn : n.Within U := hready.nodes n (List.mem_of_getElem? hi)
    have hlater : n.later = b.later := (admits_later hU hn hready.proper.within hadmits).1
    exact h.modify hU hready.nodes hready.proper hi hlater
  · rw [heq]
    obtain ⟨m, hm, -⟩ := Option.map_eq_some_iff.1 hready.origin
    exact h.append (List.getElem?_eq_some_iff.1 hm).1

/-- What a whole run preserves. -/
theorem grow_traced (hU : Formula.Family U) (hroot : root ∈ U) (merge : Merge) :
    (grow merge root).Traced root :=
  grow_induction hU hroot merge (.start merge) (fun _ _ h => ⟨h.initial, h.origin, h.earlier⟩)
    fun _ _ _ hready h => h.complete hU hready

/-! ## §4. The labels of a formula -/

/-- The tableau of any formula is fully grown at last, under both ways of merging
    nodes.  The first entry of its first node is the one that it was started with.
    Each other entry, with what its node asks for next, is saturated, and it has what
    each node that it comes from asks for.  The formula may come from whatever calls
    on formulas. -/
theorem final_labels_saturated [BEq α] {events : List (Workspace.Event α)} {w : Workspace α}
    (h : Workspace.Run {} events w) (hroot : root ∈ w.formulas) (merge : Merge) :
    (grow merge root).work = []
      ∧ (∃ es, (grow merge root).nodes[0]?
          = some ⟨.ofList [root], .empty, ⟨.empty, .empty⟩ :: es⟩)
      ∧ ∀ (i j : Nat) (n : Node α) (e : Entry α), (grow merge root).nodes[i]? = some n →
          n.entries[j]? = some e → i ≠ 0 ∨ j ≠ 0 →
            Saturated root e.now n.later
              ∧ ∀ o ∈ e.origins, ∃ m : Node α, (grow merge root).nodes[o]? = some m
                ∧ ∀ f ∈ m.later, f ∈ e.now := by
  have hfamily : Formula.Family w.formulas := h.sound.numbered.family
  have hU : Formula.Family root.subformulas := hfamily.subformulas hroot
  have hself : root ∈ root.subformulas := Formula.self_mem_subformulas hfamily hroot
  have hsound : (grow merge root).Sound root.subformulas := .grow hU hself merge
  have htraced : (grow merge root).Traced root := grow_traced hU hself merge
  -- having an origin the entry was recorded, and what is recorded is a completion
  refine ⟨grow_done hfamily hroot merge, htraced.initial, ?_⟩
  intro i j n e hn he hother
  have hentry : e ∈ n.entries := List.mem_of_getElem? he
  refine ⟨?_, fun o ho => ?_⟩
  · obtain ⟨o, ho⟩ := htraced.origin i j n e hn he hother
    obtain ⟨m, -, hlabels⟩ := hsound.labels_of_entry hU hn hentry ho
    exact .of_labels hlabels
  · obtain ⟨m, hm, hlabels⟩ := hsound.labels_of_entry hU hn hentry ho
    exact ⟨m, hm, hlabels.asked⟩

/-- The second node of the tableau of `p U q` is entered from the first one, so `p U q`
    is among the formulas of now. -/
theorem final_labels_saturated_until :
    let root : Formula String := .binary 2 .strongUntil (.prop 0 "p") (.prop 1 "q")
    ∃ (n : Node String) (e : Entry String),
      (grow .identical root).nodes[1]? = some n ∧ n.entries[0]? = some e
      ∧ Saturated root e.now n.later ∧ 0 ∈ e.origins ∧ root ∈ e.now := by
  intro root
  have hrun := Workspace.run_p_q.step (.call (.binary .strongUntil (.prop 0 "p") (.prop 1 "q"))
    (List.forall_mem_cons.2 ⟨.tail _ (.head _), List.forall_mem_singleton.2 (.head _)⟩))
  have hroot : root ∈ [root, .prop 1 "q", .prop 0 "p"] := .head _
  obtain ⟨-, ⟨es, hzero⟩, hlabels⟩ := final_labels_saturated hrun hroot .identical
  have hentry : ((grow .identical root).nodes[1]?.bind (·.entries[0]?)).any
      (·.origins.toList.contains 0) = true := by decide +kernel
  obtain ⟨e, hbind, horigin⟩ := (Option.any_eq_true ..).1 hentry
  obtain ⟨n, hn, he⟩ := Option.bind_eq_some_iff.1 hbind
  -- the node is not the first, so nothing of it is a placeholder
  obtain ⟨hsaturated, hasked⟩ := hlabels 1 0 n e hn he (.inl (by decide))
  have ho : 0 ∈ e.origins := List.contains_iff_mem.1 horigin
  obtain ⟨m, hm, hmem⟩ := hasked 0 ho
  obtain rfl := Option.some.inj (hzero.symm.trans hm)
  exact ⟨n, e, hn, he, hsaturated, ho, hmem root (OrderedSet.mem_ofList_singleton.2 rfl)⟩

end Tableau
end LinearTime
