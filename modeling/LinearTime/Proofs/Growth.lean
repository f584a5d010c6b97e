/-
  LinearTime.Proofs.Growth — what a growing tableau has recorded.

  At every moment a node is entered only the way it should be: the formulas of
  now, and those the node asks for next, are a completion of what the node they
  come from asks for.  And every completion of what a node asks for is recorded
  already or is one of those that a branch on the stack still comes to.  When
  there is no work left the tableau has recorded just the completions.

  Main results:
    * `Tableau.Records` — a way of entering a node that the tableau knows.
    * `Tableau.Sound` — the invariant, `Sound.start`, `Sound.step`, `Sound.grow`.
    * `grow_induction` — what holds of a tableau that is fully grown.
    * `grow_asked` — nodes only ask for what is asked for at some position.
    * `Sound.records_iff` — what is recorded when the work is done.
-/

import LinearTime.Proofs.Branches

namespace LinearTime

variable {α : Type}

theorem IndexSet.eq_of_beq {s t : IndexSet} (h : (s == t) = true) : s = t := by
  have hlist : s.toList = t.toList := by
    have hkeys := OrderedSet.beq_iff.1 h
    rwa [List.map_id', List.map_id'] at hkeys
  cases s
  cases t
  congr

namespace Tableau

variable {U : List (Formula α)} {n : Node α} {now now' later : FormulaSet α} {o o' : Nat}

/-! ## §1. Entering nodes -/

/-- The node was entered from `o` while the formulas of `now` held. -/
def Node.Entered (n : Node α) (now : FormulaSet α) (o : Nat) : Prop :=
  ∃ e ∈ n.entries, e.now = now ∧ o ∈ e.origins

/-- The formulas of the node are of the family, and the constant false is never
    among those of now. -/
structure Node.Within (n : Node α) (U : List (Formula α)) : Prop where
  later : n.later.Within U
  now : ∀ e ∈ n.entries, e.now.Within U ∧ ∀ id, .ff id ∉ e.now

/-- Entering a branch at a node brings in no other formulas. -/
theorem Node.enter_within (hn : n.Within U) (hnow : now.Within U ∧ ∀ id, .ff id ∉ now) :
    (n.enter now o).Within U := by
  refine ⟨hn.later, ?_⟩
  -- entered as a further entry or into one that is there
  have hall (es : List (Entry α)) (hes : ∀ e ∈ es, e.now.Within U ∧ ∀ id, .ff id ∉ e.now) :
      ∀ e ∈ Node.enter.enterOne now o es, e.now.Within U ∧ ∀ id, .ff id ∉ e.now := by
    induction es with
    | nil =>
      intro e he
      rw [List.mem_singleton.1 he]
      exact hnow
    | cons e es ih =>
      have hhead := hes e List.mem_cons_self
      have htail := fun e he => hes e (List.mem_cons_of_mem _ he)
      unfold Node.enter.enterOne
      split
      · intro e' he'
        rcases List.mem_cons.1 he' with rfl | he'
        · exact hhead
        · exact htail e' he'
      · intro e' he'
        rcases List.mem_cons.1 he' with rfl | he'
        · exact hhead
        · exact ih htail e' he'
  exact hall n.entries hn.now

/-- Entering a node once more adds just this way of entering it. -/
theorem Node.entered_enter (hU : Formula.Family U) (hn : n.Within U) (hnow : now.Within U) :
    (n.enter now o).Entered now' o' ↔ n.Entered now' o' ∨ (now' = now ∧ o' = o) := by
  have hall (es : List (Entry α)) (hes : ∀ e ∈ es, e.now.Within U ∧ ∀ id, .ff id ∉ e.now) :
      (∃ e ∈ Node.enter.enterOne now o es, e.now = now' ∧ o' ∈ e.origins)
        ↔ (∃ e ∈ es, e.now = now' ∧ o' ∈ e.origins) ∨ (now' = now ∧ o' = o) := by
    induction es with
    | nil =>
      show (∃ e ∈ [(⟨now, .ofList [o]⟩ : Entry α)], e.now = now' ∧ o' ∈ e.origins) ↔ _
      rw [List.exists_mem_cons_iff, IndexSet.mem_ofList, List.mem_singleton]
      simp [eq_comm]
    | cons e es ih =>
      have ih := ih fun e he => hes e (List.mem_cons_of_mem _ he)
      unfold Node.enter.enterOne
      split
      next heq =>
        -- Within the family, labels that compare equal are the same.
        have hkeys : e.now = now :=
          OrderedSet.eq_of_beq hU.injOn (hes e List.mem_cons_self).1 hnow heq
        have hhead : (e.now = now' ∧ o' ∈ e.origins.insert o)
            ↔ (e.now = now' ∧ o' ∈ e.origins) ∨ (now' = now ∧ o' = o) := by
          rw [IndexSet.mem_insert, and_or_left, or_comm, hkeys, @eq_comm _ now now']
        rw [List.exists_mem_cons_iff, List.exists_mem_cons_iff, hhead, or_right_comm]
      next => rw [List.exists_mem_cons_iff, List.exists_mem_cons_iff, ih, or_assoc]
  exact hall n.entries hn.now

/-! ## §2. Completing a branch -/

/-- What the node of this number asks for next. -/
def later? (t : Tableau α) (o : Nat) : Option (FormulaSet α) := (t.nodes[o]?).map (·.later)

/-- What a node asks of the next position is found by its place. -/
theorem later?_of_getElem? {t : Tableau α} {i : Nat} (h : t.nodes[i]? = some n) :
    t.later? i = some n.later := by
  unfold later?
  rw [h]
  rfl

/-- What is asked of the next position are formulas of the family. -/
theorem later?_within {t : Tableau α} (hwithin : ∀ n ∈ t.nodes, n.Within U) {i : Nat}
    {x : FormulaSet α} (h : t.later? i = some x) : x.Within U := by
  obtain ⟨n, hn, rfl⟩ := Option.map_eq_some_iff.1 h
  exact (hwithin n (List.mem_of_getElem? hn)).later

/-- A node that asks for `later`, with the untils `p` pending, was entered from
    the node `o` while the formulas of `now` held. -/
def Records (t : Tableau α) (o : Nat) (now later : FormulaSet α) (p : MarkSet) : Prop :=
  ∃ n ∈ t.nodes, n.later = later ∧ n.pending = p ∧ n.Entered now o

/-- What the completion of a branch does to a tableau. -/
structure Completed (U : List (Formula α)) (t : Tableau α) (b : Branch α) (t' : Tableau α) :
    Prop where
  untils : t'.untils = t.untils
  within : ∀ n ∈ t'.nodes, n.Within U
  records : ∀ o now later p, t'.Records o now later p ↔ t.Records o now later p
    ∨ (o = b.origin ∧ now = b.now ∧ later = b.later ∧ p = pending t.untils b.now b.later)
  keeps : ∀ o asked, t.later? o = some asked → t'.later? o = some asked
  work : (t'.work = t.work ∧ ∀ o, t'.later? o = t.later? o)
    ∨ (t'.work = successor t.nodes.length b.later :: t.work
      ∧ t'.later? t.nodes.length = some b.later
      ∧ ∀ o asked, t'.later? o = some asked → t.later? o = some asked
          ∨ (o = t.nodes.length ∧ asked = b.later))

variable {t : Tableau α} {b : Branch α}

/-- A node that admits a branch asks the same of the next position. -/
theorem admits_later {p : MarkSet} {merge : Merge} (hU : Formula.Family U) (hn : n.Within U)
    (hb : b.Within U) (h : n.admits merge b p = true) : n.later = b.later ∧ n.pending = p := by
  unfold Node.admits at h
  rw [Bool.and_eq_true, Bool.and_eq_true] at h
  exact ⟨OrderedSet.eq_of_beq hU.injOn hn.later hb.later h.1.1, IndexSet.eq_of_beq h.1.2⟩

section Lists

variable {β : Type} {xs : List β} {f : β → β} {i j : Nat} {x y : β}

/-- An element of a longer list was there before or is the one put at its end. -/
theorem getElem?_concat_some (h : (xs ++ [x])[i]? = some y) :
    xs[i]? = some y ∨ (i = xs.length ∧ y = x) := by
  rcases Nat.lt_or_ge i xs.length with hlt | hge
  · rw [List.getElem?_append_left hlt] at h
    exact .inl h
  · rw [List.getElem?_append_right hge] at h
    cases hd : i - xs.length with
    | zero =>
      rw [hd] at h
      exact .inr ⟨by omega, (Option.some.inj h).symm⟩
    | succ d =>
      rw [hd] at h
      cases h

theorem getElem?_concat_of_some (h : xs[i]? = some y) (x : β) : (xs ++ [x])[i]? = some y := by
  rw [List.getElem?_append_left (List.getElem?_eq_some_iff.1 h).1]
  exact h

/-- An element after a change was there before or comes from one that was. -/
theorem getElem?_modify_some (h : (xs.modify i f)[j]? = some y) :
    xs[j]? = some y ∨ ∃ x, xs[j]? = some x ∧ y = f x := by
  by_cases hij : i = j
  · subst hij
    rw [List.getElem?_modify_eq] at h
    obtain ⟨x, hx, rfl⟩ := Option.map_eq_some_iff.1 h
    exact .inr ⟨x, hx, rfl⟩
  · rw [List.getElem?_modify_ne f xs hij] at h
    exact .inl h

theorem mem_modify (h : xs[i]? = some x) :
    y ∈ xs.modify i f ↔ y = f x ∨ ∃ j, j ≠ i ∧ xs[j]? = some y := by
  rw [List.mem_iff_getElem?]
  constructor
  · rintro ⟨j, hj⟩
    by_cases hij : i = j
    · subst hij
      rw [List.getElem?_modify_eq, h] at hj
      exact .inl (Option.some.inj hj).symm
    · rw [List.getElem?_modify_ne f xs hij] at hj
      exact .inr ⟨j, fun h => hij h.symm, hj⟩
  · rintro (rfl | ⟨j, hij, hj⟩)
    · refine ⟨i, ?_⟩
      rw [List.getElem?_modify_eq, h]
      rfl
    · exact ⟨j, (List.getElem?_modify_ne f xs hij.symm).trans hj⟩

end Lists

/-- Merging a branch into a node. -/
theorem completed_modify (hU : Formula.Family U) (hwithin : ∀ n ∈ t.nodes, n.Within U)
    (hb : b.Within U) (hff : ∀ id, .ff id ∉ b.now) {i : Nat} (hi : t.nodes[i]? = some n)
    (hlater : n.later = b.later)
    (hpending : n.pending = pending t.untils b.now b.later) :
    Completed U t b { t with nodes := t.nodes.modify i (·.enter b.now b.origin) } := by
  have hn : n.Within U := hwithin n (List.mem_of_getElem? hi)
  -- An entry does not change what the node asks for next.
  have hlater? (o : Nat) :
      later? { t with nodes := t.nodes.modify i (·.enter b.now b.origin) } o = t.later? o := by
    unfold later?
    by_cases hio : i = o
    · subst hio
      rw [List.getElem?_modify_eq, hi]
      rfl
    · rw [List.getElem?_modify_ne _ _ hio]
  refine ⟨rfl, ?_, ?_, fun o asked h => (hlater? o).trans h, .inl ⟨rfl, hlater?⟩⟩
  · intro m hm
    rcases (mem_modify hi).1 hm with rfl | ⟨j, -, hj⟩
    · exact Node.enter_within hn ⟨hb.now, hff⟩
    · exact hwithin m (List.mem_of_getElem? hj)
  · intro o now later p
    constructor
    · rintro ⟨m, hm, hml, hmp, hentered⟩
      rcases (mem_modify hi).1 hm with rfl | ⟨j, -, hj⟩
      · rcases (Node.entered_enter hU hn hb.now).1 hentered with hentered | ⟨hnow, ho⟩
        · exact .inl ⟨n, List.mem_of_getElem? hi, hml, hmp, hentered⟩
        · exact .inr ⟨ho, hnow, hml.symm.trans hlater, hmp.symm.trans hpending⟩
      · exact .inl ⟨m, List.mem_of_getElem? hj, hml, hmp, hentered⟩
    · rintro (⟨m, hm, hml, hmp, hentered⟩ | ⟨ho, hnow, hl, hp⟩)
      · obtain ⟨j, hj⟩ := List.mem_iff_getElem?.1 hm
        by_cases hij : j = i
        · subst hij
          obtain rfl : n = m := Option.some.inj (hi.symm.trans hj)
          exact ⟨_, (mem_modify hi).2 (.inl rfl), hml, hmp,
            (Node.entered_enter hU hn hb.now).2 (.inl hentered)⟩
        · exact ⟨m, (mem_modify hi).2 (.inr ⟨j, hij, hj⟩), hml, hmp, hentered⟩
      · exact ⟨_, (mem_modify hi).2 (.inl rfl), hlater.trans hl.symm, hpending.trans hp.symm,
          (Node.entered_enter hU hn hb.now).2 (.inr ⟨hnow, ho⟩)⟩

/-- Making a branch a new node. -/
theorem completed_append (hwithin : ∀ n ∈ t.nodes, n.Within U) (hb : b.Within U)
    (hff : ∀ id, .ff id ∉ b.now) :
    Completed U t b { t with
      nodes := t.nodes
        ++ [⟨b.later, pending t.untils b.now b.later, [⟨b.now, .ofList [b.origin]⟩]⟩]
      work := successor t.nodes.length b.later :: t.work } := by
  -- The new node has one entry: the branch.
  have hnew (now : FormulaSet α) (o : Nat) :
      Node.Entered ⟨b.later, pending t.untils b.now b.later, [⟨b.now, .ofList [b.origin]⟩]⟩ now o
        ↔ now = b.now ∧ o = b.origin := by
    unfold Node.Entered
    show (∃ e ∈ [(⟨b.now, .ofList [b.origin]⟩ : Entry α)], e.now = now ∧ o ∈ e.origins) ↔ _
    rw [List.exists_mem_cons_iff, IndexSet.mem_ofList, List.mem_singleton]
    simp [eq_comm]
  refine ⟨rfl, ?_, ?_, ?_, .inr ⟨rfl, ?_, ?_⟩⟩
  · intro m hm
    rcases List.mem_append.1 hm with hm | hm
    · exact hwithin m hm
    · rw [List.mem_singleton.1 hm]
      refine ⟨hb.later, fun e he => ?_⟩
      rw [List.mem_singleton.1 he]
      exact ⟨hb.now, hff⟩
  · intro o now later p
    constructor
    · rintro ⟨m, hm, hml, hmp, hentered⟩
      rcases List.mem_append.1 hm with hm | hm
      · exact .inl ⟨m, hm, hml, hmp, hentered⟩
      · obtain rfl := List.mem_singleton.1 hm
        obtain ⟨hnow, ho⟩ := (hnew now o).1 hentered
        exact .inr ⟨ho, hnow, hml.symm, hmp.symm⟩
    · rintro (⟨m, hm, hml, hmp, hentered⟩ | ⟨ho, hnow, hl, hp⟩)
      · exact ⟨m, List.mem_append_left _ hm, hml, hmp, hentered⟩
      · exact ⟨_, List.mem_append_right _ (List.mem_singleton.2 rfl), hl.symm, hp.symm,
          (hnew now o).2 ⟨hnow, ho⟩⟩
  · intro o asked h
    obtain ⟨m, hm, rfl⟩ := Option.map_eq_some_iff.1 h
    exact later?_of_getElem? (getElem?_concat_of_some hm _)
  · unfold later?
    rw [List.getElem?_append_right (le_refl _), Nat.sub_self]
    rfl
  · intro o asked h
    obtain ⟨m, hm, rfl⟩ := Option.map_eq_some_iff.1 h
    rcases getElem?_concat_some hm with hm | ⟨ho, rfl⟩
    · exact .inl (later?_of_getElem? hm)
    · exact .inr ⟨ho, rfl⟩

/-- A completed branch is merged into a node that admits it, or becomes a new node if
    none does. -/
theorem complete_cases (t : Tableau α) (b : Branch α) :
    (∃ i n, t.nodes[i]? = some n
        ∧ n.admits t.merge b (pending t.untils b.now b.later) = true
        ∧ t.complete b = { t with nodes := t.nodes.modify i (·.enter b.now b.origin) })
      ∨ ((∀ n ∈ t.nodes, n.admits t.merge b (pending t.untils b.now b.later) = false)
        ∧ t.complete b = { t with
            nodes := t.nodes
              ++ [⟨b.later, pending t.untils b.now b.later, [⟨b.now, .ofList [b.origin]⟩]⟩]
            work := successor t.nodes.length b.later :: t.work }) := by
  unfold complete
  -- the first node that admits the branch takes it, else there is a new one
  cases hfind : t.nodes.findIdx? (·.admits t.merge b (pending t.untils b.now b.later)) with
  | none => exact .inr ⟨List.findIdx?_eq_none_iff.1 hfind, by simp only [hfind]⟩
  | some i =>
    obtain ⟨hi, hadmits, -⟩ := List.findIdx?_eq_some_iff_getElem.1 hfind
    exact .inl ⟨i, t.nodes[i], List.getElem?_eq_getElem hi, hadmits, by simp only [hfind]⟩

/-- Completing a branch merges it into a node that admits it or appends a node for it. -/
theorem completed_complete (hU : Formula.Family U) (hwithin : ∀ n ∈ t.nodes, n.Within U)
    (hb : b.Within U) (hff : ∀ id, .ff id ∉ b.now) : Completed U t b (t.complete b) := by
  rcases complete_cases t b with ⟨i, n, hn, hadmits, heq⟩ | ⟨-, heq⟩
  · obtain ⟨hlater, hpending⟩ :=
      admits_later hU (hwithin n (List.mem_of_getElem? hn)) hb hadmits
    rw [heq]
    exact completed_modify hU hwithin hb hff hn hlater hpending
  · rw [heq]
    exact completed_append hwithin hb hff

/-! ## §3. The invariant -/

/-- What is recorded is right, branches come to nothing else, and whatever is
    missing is what a branch on the stack comes to. -/
structure Sound (U : List (Formula α)) (t : Tableau α) : Prop where
  within : ∀ n ∈ t.nodes, n.Within U
  completion : ∀ o now later p, t.Records o now later p →
    ∃ asked, t.later? o = some asked ∧ Completion asked now later
      ∧ p = pending t.untils now later
  working : ∀ b ∈ t.work, ∃ asked, t.later? b.origin = some asked ∧ b.Proper U asked
    ∧ ∀ now later, b.Completes now later → Completion asked now later
  recorded : ∀ o asked, t.later? o = some asked → ∀ now later, Completion asked now later →
    t.Records o now later (pending t.untils now later)
      ∨ ∃ b ∈ t.work, b.origin = o ∧ b.Completes now later

theorem ofList_within {root : Formula α} (hroot : root ∈ U) :
    (OrderedSet.ofList [root] : FormulaSet α).Within U := by
  intro f hf
  rwa [OrderedSet.mem_ofList_singleton.1 hf]

/-- The tableau of a formula of the family is sound before the first step. -/
theorem Sound.start {root : Formula α} (hroot : root ∈ U) (merge : Merge) :
    (start merge root).Sound U := by
  have hlater : (Tableau.start merge root).later? 0 = some (.ofList [root]) := rfl
  have hlater_zero {o : Nat} {asked : FormulaSet α}
      (h : (Tableau.start merge root).later? o = some asked) :
      o = 0 ∧ asked = .ofList [root] := by
    cases o with
    | zero => exact ⟨rfl, (Option.some.inj h).symm⟩
    | succ o => cases h
  exact {
    within := by
      intro n hn
      rw [List.mem_singleton.1 hn]
      refine ⟨ofList_within hroot, fun e he => ?_⟩
      rw [List.mem_singleton.1 he]
      exact ⟨OrderedSet.within_empty, fun id => OrderedSet.not_mem_empty _⟩
    completion := by
      -- the initial node was not entered
      rintro o now later p ⟨n, hn, -, -, e, he, -, ho⟩
      obtain rfl := List.mem_singleton.1 hn
      obtain rfl := List.mem_singleton.1 he
      exact absurd ho (OrderedSet.not_mem_empty o)
    working := by
      intro b hb
      rw [List.mem_singleton.1 hb]
      exact ⟨_, hlater, .start (ofList_within hroot) 0, fun now later h => h⟩
    recorded := by
      intro o asked h now later hc
      obtain ⟨rfl, rfl⟩ := hlater_zero h
      exact .inr ⟨_, List.mem_singleton.2 rfl, rfl, hc⟩ }

/-- Treating a formula of the topmost branch. -/
theorem Sound.of_treat (hU : Formula.Family U) {work : List (Branch α)} {f : Formula α}
    {todo : FormulaSet α} (h : t.Sound U) (hwork : t.work = b :: work)
    (hpop : b.todo.popLeast? = some (f, todo)) :
    Sound U { t with work := ({ b with todo } : Branch α).treat f ++ work } where
  within := h.within
  completion := h.completion
  working := by
    intro b' hb'
    rcases List.mem_append.1 hb' with hb' | hb'
    · obtain ⟨asked, hasked, hproper, hc⟩ := h.working b (hwork ▸ List.mem_cons_self)
      obtain ⟨a, ho, rfl⟩ := Branch.mem_treat.1 hb'
      have ht := hproper.treated hU hpop ho
      refine ⟨asked, ?_, hproper.of_treated hU hpop ho ht, fun now later h' => ?_⟩
      · rw [ht.origin]
        exact hasked
      · exact hc now later (.treat hpop hb' h')
    · exact h.working b' (hwork ▸ List.mem_cons_of_mem _ hb')
  recorded := by
    intro o asked hasked now later hc
    rcases h.recorded o asked hasked now later hc with hr | ⟨b', hb', ho, hc'⟩
    · exact .inl hr
    · refine .inr ?_
      rw [hwork] at hb'
      rcases List.mem_cons.1 hb' with rfl | hb'
      · -- what the branch comes to one of its alternatives comes to
        cases hc' with
        | done hnone =>
          rw [hpop] at hnone
          cases hnone
        | treat hpop' hmem hc'' =>
          rw [hpop] at hpop'
          cases hpop'
          obtain ⟨asked', -, hproper, -⟩ := h.working b' (hwork ▸ List.mem_cons_self)
          obtain ⟨a, hoffer, rfl⟩ := Branch.mem_treat.1 hmem
          exact ⟨_, List.mem_append_left _ hmem,
            (hproper.treated hU hpop hoffer).origin.trans ho, hc''⟩
      · exact ⟨b', List.mem_append_right _ hb', ho, hc'⟩

/-- A branch on the way from a node of the tableau, with nothing left to treat. -/
structure Ready (U : List (Formula α)) (t : Tableau α) (asked : FormulaSet α) (b : Branch α) :
    Prop where
  nodes : ∀ n ∈ t.nodes, n.Within U
  origin : t.later? b.origin = some asked
  proper : b.Proper U asked
  completion : Completion asked b.now b.later

/-- A branch with nothing left to treat can be completed. -/
theorem Sound.ready {work : List (Branch α)} (h : t.Sound U) (hwork : t.work = b :: work)
    (hpop : b.todo.popLeast? = none) : ∃ asked, Ready U { t with work } asked b := by
  obtain ⟨asked, hasked, hproper, hc⟩ := h.working b (hwork ▸ List.mem_cons_self)
  exact ⟨asked, h.within, hasked, hproper, hc _ _ (.done hpop)⟩

theorem Ready.completed (hU : Formula.Family U) {asked : FormulaSet α} (h : Ready U t asked b) :
    Completed U t b (t.complete b) :=
  completed_complete hU h.nodes h.proper.within h.proper.ff_not_mem

/-- The branch that was completed comes to its own sets only, so what is missing after
    that is what the branches below it come to. -/
theorem Sound.recorded_or_below {t' : Tableau α} {work : List (Branch α)} (h : t.Sound U)
    (hwork : t.work = b :: work) (hpop : b.todo.popLeast? = none)
    (hcompleted : Completed U { t with work } b t') {asked : FormulaSet α}
    (hasked : t.later? o = some asked) (hc : Completion asked now later) :
    t'.Records o now later (pending t'.untils now later)
      ∨ ∃ b ∈ work, b.origin = o ∧ b.Completes now later := by
  rw [hcompleted.untils]
  -- recorded before, recorded now or still to come from another branch
  rcases h.recorded o asked hasked now later hc with hr | ⟨b', hb', ho, hc'⟩
  · exact .inl ((hcompleted.records o now later _).2 (.inl hr))
  · rw [hwork] at hb'
    rcases List.mem_cons.1 hb' with rfl | hb'
    · cases hc' with
      | done => exact .inl ((hcompleted.records ..).2 (.inr ⟨ho.symm, rfl, rfl, rfl⟩))
      | treat hpop' =>
        rw [hpop] at hpop'
        cases hpop'
    · exact .inr ⟨b', hb', ho, hc'⟩

/-- Completing the topmost branch. -/
theorem Sound.of_complete (hU : Formula.Family U) {work : List (Branch α)} (h : t.Sound U)
    (hwork : t.work = b :: work) (hpop : b.todo.popLeast? = none) :
    Sound U (complete { t with work } b) := by
  obtain ⟨asked, hready⟩ := h.ready hwork hpop
  have hcompleted : Completed U { t with work } b (complete { t with work } b) :=
    hready.completed hU
  -- Which of its two ways `complete` takes makes no difference from here on.
  generalize complete { t with work } b = t' at hcompleted
  exact {
    within := hcompleted.within
    completion := by
      intro o now later p hr
      rw [hcompleted.untils]
      rcases (hcompleted.records o now later p).1 hr with hr | ⟨rfl, rfl, rfl, rfl⟩
      · obtain ⟨asked', hasked', hc', hp⟩ := h.completion o now later p hr
        exact ⟨asked', hcompleted.keeps o asked' hasked', hc', hp⟩
      · exact ⟨asked, hcompleted.keeps _ _ hready.origin, hready.completion, rfl⟩
    working := by
      have hold (b' : Branch α) (hb' : b' ∈ work) :
          ∃ asked, t'.later? b'.origin = some asked ∧ b'.Proper U asked
            ∧ ∀ now later, b'.Completes now later → Completion asked now later := by
        obtain ⟨asked', hasked', hrest⟩ := h.working b' (hwork ▸ List.mem_cons_of_mem _ hb')
        exact ⟨asked', hcompleted.keeps _ _ hasked', hrest⟩
      intro b' hb'
      rcases hcompleted.work with ⟨hsame, -⟩ | ⟨hnew, hlater, -⟩
      · rw [hsame] at hb'
        exact hold b' hb'
      · rw [hnew] at hb'
        rcases List.mem_cons.1 hb' with rfl | hb'
        · exact ⟨_, hlater, .start hready.proper.within.later _,
            fun now later h' => (completion_iff _).2 h'⟩
        · exact hold b' hb'
    recorded := by
      intro o asked' hasked' now later hc'
      rcases hcompleted.work with ⟨hsame, hlater⟩ | ⟨hnew, -, hlater⟩
      · rw [hsame]
        exact h.recorded_or_below hwork hpop hcompleted ((hlater o).symm.trans hasked') hc'
      · rw [hnew]
        rcases hlater o asked' hasked' with hasked' | ⟨rfl, rfl⟩
        · refine (h.recorded_or_below hwork hpop hcompleted hasked' hc').imp_right ?_
          rintro ⟨b', hb', hrest⟩
          exact ⟨b', List.mem_cons_of_mem _ hb', hrest⟩
        · -- the new node is asked by the branch that starts there
          exact .inr ⟨_, List.mem_cons_self, rfl, (completion_iff _).1 hc'⟩ }

/-! ## §4. Steps and runs -/

/-- With an empty work list nothing happens. -/
theorem step_of_nil (hwork : t.work = []) : t.step = t := by
  unfold step
  rw [hwork]

/-- A branch with nothing left to treat is completed. -/
theorem step_of_none {work : List (Branch α)} (hwork : t.work = b :: work)
    (hpop : b.todo.popLeast? = none) : t.step = complete { t with work } b := by
  unfold step
  rw [hwork]
  dsimp only
  rw [hpop]

/-- Of the first branch, the least formula that is left is treated. -/
theorem step_of_some {work : List (Branch α)} {f : Formula α} {todo : FormulaSet α}
    (hwork : t.work = b :: work) (hpop : b.todo.popLeast? = some (f, todo)) :
    t.step = { t with work := ({ b with todo } : Branch α).treat f ++ work } := by
  unfold step
  rw [hwork]
  dsimp only
  rw [hpop]

/-- What one step preserves. -/
theorem Sound.step (hU : Formula.Family U) (h : t.Sound U) : t.step.Sound U := by
  cases hwork : t.work with
  | nil =>
    rw [step_of_nil hwork]
    exact h
  | cons b work =>
    cases hpop : b.todo.popLeast? with
    | none =>
      rw [step_of_none hwork hpop]
      exact h.of_complete hU hwork hpop
    | some entry =>
      rw [step_of_some hwork hpop]
      exact h.of_treat hU hwork hpop

/-- What every step keeps a run keeps. -/
theorem run_induction {P : Tableau α → Prop} (hstep : ∀ t, P t → P t.step) (steps : Nat) :
    ∀ t : Tableau α, P t → P (t.run steps) := by
  induction steps with
  | zero => exact fun t ht => ht
  | succ steps ih =>
    intro t ht
    unfold run
    split
    · exact ht
    · exact ih t.step (hstep t ht)

/-- What all steps together preserve. -/
theorem Sound.grow (hU : Formula.Family U) {root : Formula α} (hroot : root ∈ U) (merge : Merge) :
    (grow merge root).Sound U :=
  run_induction (fun _ h => h.step hU) _ _ (.start hroot merge)

/-- What no completed branch spoils the fully grown tableau has, if it is not about the
    branches on the stack. -/
theorem grow_induction (hU : Formula.Family U) {root : Formula α} (hroot : root ∈ U)
    (merge : Merge) {P : Tableau α → Prop} (hstart : P (Tableau.start merge root))
    (hwork : ∀ t work, P t → P { t with work })
    (hcomplete : ∀ t asked b, Ready U t asked b → P t → P (t.complete b)) :
    P (grow merge root) := by
  refine (run_induction (P := fun t => t.Sound U ∧ P t) ?_ _ _ ⟨.start hroot merge, hstart⟩).2
  rintro t ⟨hsound, ht⟩
  refine ⟨hsound.step hU, ?_⟩
  -- One step: stop, complete a branch or treat a formula of one.
  cases hstack : t.work with
  | nil =>
    rw [step_of_nil hstack]
    exact ht
  | cons b work =>
    cases hpop : b.todo.popLeast? with
    | none =>
      obtain ⟨asked, hready⟩ := hsound.ready hstack hpop
      rw [step_of_none hstack hpop]
      exact hcomplete _ asked b hready (hwork t work ht)
    | some entry =>
      rw [step_of_some hstack hpop]
      exact hwork t _ ht

/-- The first node asks for the formula the tableau was grown for. -/
theorem grow_later?_zero (hU : Formula.Family U) {root : Formula α} (hroot : root ∈ U)
    (merge : Merge) : (grow merge root).later? 0 = some (.ofList [root]) :=
  grow_induction (P := fun t => t.later? 0 = some (.ofList [root])) hU hroot merge rfl
    (fun _ _ h => h) fun _ _ _ hready h => (hready.completed hU).keeps _ _ h

/-- The sets of formulas that are asked for at some position, if the formulas of
    `start` are asked for at the first. -/
inductive Asked (start : FormulaSet α) : FormulaSet α → Prop
  | start : Asked start start
  | next {asked now later : FormulaSet α} (h : Asked start asked)
    (hc : Completion asked now later) : Asked start later

/-- Nodes only ask for sets that are asked for at some position. -/
theorem grow_asked (hU : Formula.Family U) {root : Formula α} (hroot : root ∈ U) (merge : Merge)
    (o : Nat) (x : FormulaSet α) (hx : (grow merge root).later? o = some x) :
    Asked (.ofList [root]) x := by
  refine grow_induction (P := fun t => ∀ o x, t.later? o = some x → Asked (.ofList [root]) x)
    hU hroot merge ?_ (fun _ _ h => h) ?_ o x hx
  · intro o x hx
    -- the first node asks for the formula, and there is no other yet
    cases o with
    | zero =>
      obtain rfl : OrderedSet.ofList [root] = x := Option.some.inj hx
      exact .start
    | succ o => cases hx
  · intro t asked b hready h o x hx
    rcases (hready.completed hU).work with ⟨-, hsame⟩ | ⟨-, -, hnew⟩
    · rw [hsame] at hx
      exact h o x hx
    · rcases hnew o x hx with hold | ⟨-, rfl⟩
      · exact h o x hold
      · -- the new node asks for what the branch comes to
        exact (h _ _ hready.origin).next hready.completion

/-- Neither the untils nor the strategy ever change. -/
theorem step_untils (t : Tableau α) : t.step.untils = t.untils ∧ t.step.merge = t.merge := by
  cases hwork : t.work with
  | nil =>
    rw [step_of_nil hwork]
    exact ⟨rfl, rfl⟩
  | cons b work =>
    cases hpop : b.todo.popLeast? with
    | none =>
      rw [step_of_none hwork hpop]
      rcases complete_cases { t with work } b with ⟨i, n, -, -, heq⟩ | ⟨-, heq⟩ <;> rw [heq] <;>
        exact ⟨rfl, rfl⟩
    | some entry =>
      rw [step_of_some hwork hpop]
      exact ⟨rfl, rfl⟩

/-- No step changes the untils or the way in which nodes are merged. -/
theorem grow_untils (merge : Merge) (root : Formula α) :
    (grow merge root).untils = untilsOf root ∧ (grow merge root).merge = merge := by
  refine run_induction (P := fun t => t.untils = untilsOf root ∧ t.merge = merge) ?_ _
    (start merge root) ⟨rfl, rfl⟩
  intro t ht
  exact ⟨(step_untils t).1.trans ht.1, (step_untils t).2.trans ht.2⟩

/-- When the work is done, just the completions are recorded. -/
theorem Sound.records_iff (h : t.Sound U) (hdone : t.work = []) {asked : FormulaSet α}
    {p : MarkSet} (hasked : t.later? o = some asked) :
    t.Records o now later p ↔ Completion asked now later ∧ p = pending t.untils now later := by
  constructor
  · intro hr
    obtain ⟨asked', hasked', hc, hp⟩ := h.completion o now later p hr
    obtain rfl : asked = asked' := Option.some.inj (hasked.symm.trans hasked')
    exact ⟨hc, hp⟩
  · rintro ⟨hc, rfl⟩
    rcases h.recorded o asked hasked now later hc with hr | ⟨b, hb, -⟩
    · exact hr
    · rw [hdone] at hb
      exact absurd hb List.not_mem_nil

end Tableau
end LinearTime
