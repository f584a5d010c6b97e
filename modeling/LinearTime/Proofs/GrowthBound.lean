/-
  LinearTime.Proofs.GrowthBound — the tableau of a formula is finite.

  Treating a formula counts it among those of now for good, so with `n`
  subformulas a branch in which `k` formulas hold now is split up in less than
  `2^(n+1-k)` steps.  Two nodes never agree in the formulas next, in the untils
  pending and, unless nodes are merged regardless of them, in the formulas now
  of their first entry; so there are at most `2^(3n)` nodes.  The two bounds
  make a potential that every step lowers.

  Main results:
    * `Tableau.Distinct` — the nodes differ in their keys.
    * `step_lowers` — every step lowers the potential.
    * `grow_done` — the step limit is never reached.
-/

import LinearTime.Proofs.Growth

namespace LinearTime

variable {α : Type}

/-! ## §1. Keys -/

namespace OrderedSet

variable {β : Type} {key : β → Nat} {U : List β} {s t : OrderedSet key}

/-- The keys of the elements. -/
def keys (s : OrderedSet key) : Finset Nat := (s.toList.map key).toFinset

/-- Sets of the same keys are equal. -/
theorem beq_of_keys_eq (h : s.keys = t.keys) : (s == t) = true := by
  rw [beq_iff]
  have hs : (s.toList.map key).Pairwise (· < ·) := List.pairwise_map.2 s.ascending
  have ht : (t.toList.map key).Pairwise (· < ·) := List.pairwise_map.2 t.ascending
  apply hs.eq_of_mem_iff ht
  intro i
  rw [← List.mem_toFinset, ← List.mem_toFinset]
  exact Finset.ext_iff.1 h i

/-- The keys of a set within the family are keys of the family. -/
theorem Within.keys_subset (hs : s.Within U) : s.keys ⊆ (U.map key).toFinset := by
  intro i hi
  obtain ⟨x, hx, rfl⟩ := List.mem_map.1 (List.mem_toFinset.1 hi)
  exact List.mem_toFinset.2 (List.mem_map.2 ⟨x, hs x hx, rfl⟩)

end OrderedSet

namespace Tableau

variable {U : List (Formula α)} {t : Tableau α} {b : Branch α} {n : Node α}

/-- What two nodes never have in common. -/
def Node.key (merge : Merge) (n : Node α) : Finset Nat × Finset Nat × Finset Nat :=
  (n.later.keys, n.pending.keys,
    match merge with
    | .identical => (n.entries.head?.map (·.now.keys)).getD ∅
    | .nextAndPending => ∅)

/-- The nodes differ in their keys, and each one has an entry and no other marks
    than those of untils. -/
structure Distinct (t : Tableau α) : Prop where
  entries : ∀ n ∈ t.nodes, n.entries ≠ []
  pending : ∀ n ∈ t.nodes, ∀ i ∈ n.pending, i < t.untils.length
  keys : (t.nodes.map (Node.key t.merge)).Nodup

/-- Entering a node once more leaves its first entry first. -/
theorem Node.enter_head (hn : n.entries ≠ []) (now : FormulaSet α) (o : Nat) :
    (n.enter now o).entries ≠ []
      ∧ (n.enter now o).entries.head?.map (·.now) = n.entries.head?.map (·.now) := by
  cases hes : n.entries with
  | nil => exact absurd hes hn
  | cons e es =>
    have henter : (n.enter now o).entries = Node.enter.enterOne now o (e :: es) := by
      rw [← hes]
      rfl
    rw [henter]
    unfold Node.enter.enterOne
    split
    · exact ⟨List.cons_ne_nil _ _, rfl⟩
    · exact ⟨List.cons_ne_nil _ _, rfl⟩

/-- Adding an entry to a node does not change its key. -/
theorem Node.key_enter (hn : n.entries ≠ []) (merge : Merge) (now : FormulaSet α) (o : Nat) :
    (n.enter now o).key merge = n.key merge := by
  have hhead := congrArg (Option.map OrderedSet.keys) (Node.enter_head hn now o).2
  rw [Option.map_map, Option.map_map] at hhead
  unfold Node.key
  cases merge with
  | identical =>
    show (n.later.keys, n.pending.keys, ((n.enter now o).entries.head?.map _).getD ∅) = _
    congr 3
  | nextAndPending => rfl

/-- A node whose key the new node would have is one to merge into. -/
theorem admits_of_key_eq (hn : n.entries ≠ []) {merge : Merge} {p : MarkSet}
    (h : Node.key merge ⟨b.later, p, [⟨b.now, .ofList [b.origin]⟩]⟩ = n.key merge) :
    n.admits merge b p = true := by
  unfold Node.key at h
  obtain ⟨hlater, h⟩ := Prod.mk.inj h
  obtain ⟨hpending, hnow⟩ := Prod.mk.inj h
  unfold Node.admits
  rw [OrderedSet.beq_of_keys_eq hlater.symm, OrderedSet.beq_of_keys_eq hpending.symm]
  -- the key holds all that the merge looks at
  cases merge with
  | nextAndPending => rfl
  | identical =>
    cases hes : n.entries with
    | nil => exact absurd hes hn
    | cons e es =>
      rw [hes] at hnow
      show (e.now == b.now || es.any (·.now == b.now)) = true
      rw [OrderedSet.beq_of_keys_eq (s := e.now) (t := b.now) hnow.symm]
      rfl

/-- The tableau that is started with has one node. -/
theorem Distinct.start {root : Formula α} (merge : Merge) : (start merge root).Distinct := by
  refine ⟨?_, ?_, ?_⟩
  · intro n hn
    rw [List.mem_singleton.1 hn]
    exact List.cons_ne_nil _ _
  · intro n hn i hi
    rw [List.mem_singleton.1 hn] at hi
    exact absurd hi (OrderedSet.not_mem_empty i)
  · exact List.nodup_singleton _

/-- A node that is entered once more keeps its key. -/
theorem Distinct.modify (h : t.Distinct) {i : Nat} (hi : t.nodes[i]? = some n)
    (now : FormulaSet α) (o : Nat) :
    Distinct { t with nodes := t.nodes.modify i (·.enter now o) } := by
  -- entering a branch changes one node, and not its key
  have hmem {m : Node α} (hm : m ∈ t.nodes.modify i (·.enter now o)) :
      m ∈ t.nodes ∨ ∃ k ∈ t.nodes, m = k.enter now o := by
    rcases (mem_modify hi).1 hm with rfl | ⟨j, -, hj⟩
    · exact .inr ⟨n, List.mem_of_getElem? hi, rfl⟩
    · exact .inl (List.mem_of_getElem? hj)
  exact {
    entries := by
      intro m hm
      rcases hmem hm with hm | ⟨k, hk, rfl⟩
      · exact h.entries m hm
      · exact (Node.enter_head (h.entries k hk) _ _).1
    pending := by
      intro m hm j hj
      rcases hmem hm with hm | ⟨k, hk, rfl⟩
      · exact h.pending m hm j hj
      · exact h.pending k hk j hj
    keys := by
      have hkeys : (t.nodes.modify i (·.enter now o)).map (Node.key t.merge)
          = t.nodes.map (Node.key t.merge) := by
        apply List.ext_getElem?
        intro j
        rw [List.getElem?_map, List.getElem?_map]
        by_cases hij : i = j
        · subst hij
          rw [List.getElem?_modify_eq, hi]
          exact congrArg some (Node.key_enter (h.entries n (List.mem_of_getElem? hi)) _ _ _)
        · rw [List.getElem?_modify_ne _ _ hij]
      show ((t.nodes.modify i _).map (Node.key t.merge)).Nodup
      rw [hkeys]
      exact h.keys }

/-- A new node has a new key if none of the others admits its branch. -/
theorem Distinct.append (h : t.Distinct) {b : Branch α}
    (hnone : ∀ n ∈ t.nodes, n.admits t.merge b (Tableau.pending t.untils b.now b.later) = false)
    (work : List (Branch α)) :
    Distinct { t with
      nodes := t.nodes
        ++ [⟨b.later, Tableau.pending t.untils b.now b.later, [⟨b.now, .ofList [b.origin]⟩]⟩]
      work } where
  entries := by
    intro n hn
    rcases List.mem_append.1 hn with hn | hn
    · exact h.entries n hn
    · rw [List.mem_singleton.1 hn]
      exact List.cons_ne_nil _ _
  pending := by
    intro n hn j hj
    rcases List.mem_append.1 hn with hn | hn
    · exact h.pending n hn j hj
    · rw [List.mem_singleton.1 hn] at hj
      exact (MarkSet.mem_below.1 hj).1
  keys := by
    show ((t.nodes ++ [_]).map (Node.key t.merge)).Nodup
    rw [List.map_append, List.map_singleton]
    refine List.nodup_append.2 ⟨h.keys, List.nodup_singleton _, ?_⟩
    rintro k hk k' hk' rfl
    obtain ⟨n, hn, hkey⟩ := List.mem_map.1 hk
    rw [List.mem_singleton.1 hk'] at hkey
    -- A node with the key of the new one would have admitted the branch.
    have hadmits := admits_of_key_eq (h.entries n hn) hkey.symm
    exact absurd (hadmits.symm.trans (hnone n hn)) (by decide)

/-- Completing a branch keeps the nodes distinct. -/
theorem Distinct.complete (h : t.Distinct) (b : Branch α) : (t.complete b).Distinct := by
  rcases complete_cases t b with ⟨i, n, hi, -, heq⟩ | ⟨hnone, heq⟩
  · rw [heq]
    exact h.modify hi _ _
  · rw [heq]
    exact h.append hnone _

/-- A step keeps the nodes distinct. -/
theorem Distinct.step (h : t.Distinct) : t.step.Distinct := by
  cases hwork : t.work with
  | nil =>
    rw [step_of_nil hwork]
    exact h
  | cons b work =>
    cases hpop : b.todo.popLeast? with
    | none =>
      rw [step_of_none hwork hpop]
      have hrest : Distinct { t with work } := ⟨h.entries, h.pending, h.keys⟩
      exact hrest.complete b
    | some entry =>
      rw [step_of_some hwork hpop]
      exact ⟨h.entries, h.pending, h.keys⟩

/-! ## §2. The number of nodes -/

/-- With `n` formulas and at most as many untils there are at most `2^(3n)`
    nodes. -/
theorem Distinct.length_nodes_le (h : t.Distinct) (hwithin : ∀ n ∈ t.nodes, n.Within U)
    (huntils : t.untils.length ≤ U.length) : t.nodes.length ≤ 2 ^ (3 * U.length) := by
  let formulas : Finset (Finset Nat) := (U.map Formula.id).toFinset.powerset
  let marks : Finset (Finset Nat) := (Finset.range U.length).powerset
  have hformulas : formulas.card ≤ 2 ^ U.length := by
    have hcard : (U.map Formula.id).toFinset.card ≤ U.length :=
      (List.toFinset_card_le _).trans_eq (List.length_map _)
    rw [Finset.card_powerset]
    exact Nat.pow_le_pow_right (by decide) hcard
  have hmarks : marks.card = 2 ^ U.length := by
    rw [Finset.card_powerset, Finset.card_range]
  -- A key is made of two sets of formulas and one of marks.
  have hkeys : (t.nodes.map (Node.key t.merge)).toFinset ⊆ formulas ×ˢ marks ×ˢ formulas := by
    intro k hk
    obtain ⟨n, hn, rfl⟩ := List.mem_map.1 (List.mem_toFinset.1 hk)
    refine Finset.mem_product.2 ⟨?_, Finset.mem_product.2 ⟨?_, ?_⟩⟩
    · exact Finset.mem_powerset.2 (hwithin n hn).later.keys_subset
    · refine Finset.mem_powerset.2 fun i hi => ?_
      obtain ⟨j, hj, rfl⟩ := List.mem_map.1 (List.mem_toFinset.1 hi)
      exact Finset.mem_range.2 (lt_of_lt_of_le (h.pending n hn j hj) huntils)
    · show (match t.merge with
        | .identical => (n.entries.head?.map (·.now.keys)).getD ∅
        | .nextAndPending => ∅) ∈ formulas
      cases t.merge with
      | nextAndPending => exact Finset.mem_powerset.2 (Finset.empty_subset _)
      | identical =>
        cases hes : n.entries with
        | nil => exact absurd hes (h.entries n hn)
        | cons e es =>
          have he := ((hwithin n hn).now e (hes ▸ List.mem_cons_self)).1
          exact Finset.mem_powerset.2 he.keys_subset
  calc t.nodes.length = (t.nodes.map (Node.key t.merge)).toFinset.card := by
        rw [List.toFinset_card_of_nodup h.keys, List.length_map]
    _ ≤ (formulas ×ˢ marks ×ˢ formulas).card := Finset.card_le_card hkeys
    _ = formulas.card * (marks.card * formulas.card) := by
        rw [Finset.card_product, Finset.card_product]
    _ ≤ 2 ^ U.length * (2 ^ U.length * 2 ^ U.length) := by
        rw [hmarks]
        exact Nat.mul_le_mul hformulas (Nat.mul_le_mul_left _ hformulas)
    _ = 2 ^ (3 * U.length) := by
        rw [← Nat.pow_add, ← Nat.pow_add]
        congr 1
        omega

/-! ## §3. The potential -/

/-- A bound on the steps that split up a branch of `n` formulas. -/
def cost (n : Nat) (b : Branch α) : Nat := 2 ^ (n + 1 - b.now.size) - 1

/-- A bound on the steps that are left: those for the branches on the stack, and
    those for the nodes still to come. -/
def potential (n : Nat) (t : Tableau α) : Nat :=
  (t.work.map (cost n)).sum + (2 ^ (3 * n) - t.nodes.length) * 2 ^ (n + 1)

/-- A formula splits a branch in two at most. -/
theorem length_treat_le (b : Branch α) (f : Formula α) : (b.treat f).length ≤ 2 := by
  unfold Branch.treat
  split
  · split <;> simp
  · split
    · simp
    · cases f with
      | binary id op l r => cases op <;> simp
      | _ => simp

/-- One more formula of now halves the cost. -/
theorem cost_treat_lt {k : Nat} (hsize : b.now.size < k) {branches : List (Branch α)}
    (hlength : branches.length ≤ 2)
    (hbranches : ∀ b' ∈ branches, b'.now.size = b.now.size + 1) :
    (branches.map (cost k)).sum < cost k b := by
  have hcost : ∀ b' ∈ branches, cost k b' = 2 ^ (k - b.now.size) - 1 := by
    intro b' hb'
    unfold cost
    rw [hbranches b' hb']
    congr 2
    omega
  have hsum : (branches.map (cost k)).sum = branches.length * (2 ^ (k - b.now.size) - 1) := by
    rw [List.map_congr_left hcost, List.map_const', List.sum_replicate, smul_eq_mul]
  -- a label that is one larger halves the cost, and at most two have it
  have hdouble : 2 ^ (k + 1 - b.now.size) = 2 * 2 ^ (k - b.now.size) := by
    rw [show k + 1 - b.now.size = k - b.now.size + 1 by omega, Nat.pow_succ, Nat.mul_comm]
  have hpos : 0 < 2 ^ (k - b.now.size) := Nat.two_pow_pos _
  have hle : branches.length * (2 ^ (k - b.now.size) - 1) ≤ 2 * (2 ^ (k - b.now.size) - 1) :=
    Nat.mul_le_mul_right _ hlength
  rw [hsum]
  unfold cost
  omega

theorem cost_pos {k : Nat} (hsize : b.now.size ≤ k) : 0 < cost k b := by
  have : 2 ^ 1 ≤ 2 ^ (k + 1 - b.now.size) := Nat.pow_le_pow_right (by decide) (by omega)
  unfold cost
  omega

/-! ## §4. Every step lowers the potential -/

section Lowering

variable (hU : Formula.Family U)
include hU

/-- Treating a formula takes a step off the bound. -/
theorem treat_lowers {work : List (Branch α)} {f : Formula α} {todo : FormulaSet α}
    (h : t.Sound U) (hwork : t.work = b :: work) (hpop : b.todo.popLeast? = some (f, todo)) :
    potential U.length { t with work := ({ b with todo } : Branch α).treat f ++ work }
      < potential U.length t := by
  obtain ⟨asked, -, hproper, -⟩ := h.working b (hwork ▸ List.mem_cons_self)
  obtain ⟨hf, hfresh, -⟩ := hproper.popped hpop
  -- the formula is new in the label, so every alternative has a larger one
  have hinsert : (b.now.insert f).size = b.now.size + 1 :=
    OrderedSet.size_insert hU.injOn hproper.within.now hf hfresh
  have hle : (b.now.insert f).size ≤ U.length := OrderedSet.size_le (hproper.within.now.insert hf)
  have hsize : ∀ b' ∈ ({ b with todo } : Branch α).treat f, b'.now.size = b.now.size + 1 := by
    intro b' hb'
    obtain ⟨a, ho, rfl⟩ := Branch.mem_treat.1 hb'
    rw [(hproper.treated hU hpop ho).now, hinsert]
  have hlt := cost_treat_lt (b := b) (k := U.length) (by omega) (length_treat_le _ f) hsize
  unfold potential
  rw [hwork, List.map_append, List.sum_append, List.map_cons, List.sum_cons]
  dsimp only
  omega

omit hU in
/-- A completed branch leaves the stack; it may put one more node and the branch
    after it in its place. -/
theorem complete_shape (t : Tableau α) (b : Branch α) :
    ((t.complete b).work = t.work ∧ (t.complete b).nodes.length = t.nodes.length)
      ∨ ((t.complete b).work = successor t.nodes.length b.later :: t.work
        ∧ (t.complete b).nodes.length = t.nodes.length + 1) := by
  rcases complete_cases t b with ⟨i, n, -, -, heq⟩ | ⟨-, heq⟩
  · rw [heq]
    exact .inl ⟨rfl, List.length_modify ..⟩
  · rw [heq]
    exact .inr ⟨rfl, List.length_append⟩

omit hU in
/-- No step takes a node away. -/
theorem length_nodes_le_step (t : Tableau α) : t.nodes.length ≤ t.step.nodes.length := by
  cases hwork : t.work with
  | nil => rw [step_of_nil hwork]
  | cons b work =>
    cases hpop : b.todo.popLeast? with
    | none =>
      rw [step_of_none hwork hpop]
      rcases complete_shape { t with work } b with ⟨-, hlength⟩ | ⟨-, hlength⟩
      · exact hlength.ge
      · rw [hlength]
        exact Nat.le_succ _
    | some entry => rw [step_of_some hwork hpop]

omit hU in
/-- There always is the initial node. -/
theorem grow_nodes_ne_nil (merge : Merge) (root : Formula α) : (grow merge root).nodes ≠ [] := by
  refine List.length_pos_iff.1 ?_
  refine run_induction (P := fun t => 0 < t.nodes.length) (fun t ht => ?_) _ _ Nat.zero_lt_one
  exact lt_of_lt_of_le ht (length_nodes_le_step t)

/-- Completing a branch takes a step off the bound. -/
theorem complete_lowers {work : List (Branch α)} (h : t.Sound U) (hd : t.Distinct)
    (huntils : t.untils.length ≤ U.length) (hwork : t.work = b :: work) :
    potential U.length (complete { t with work } b) < potential U.length t := by
  obtain ⟨asked, -, hproper, -⟩ := h.working b (hwork ▸ List.mem_cons_self)
  have hpos : 0 < cost U.length b := cost_pos (OrderedSet.size_le hproper.within.now)
  have hbound : (complete { t with work } b).nodes.length ≤ 2 ^ (3 * U.length) := by
    have hrest : Distinct { t with work } := ⟨hd.entries, hd.pending, hd.keys⟩
    have hcompleted : Completed U { t with work } b (complete { t with work } b) :=
      completed_complete hU h.within hproper.within hproper.ff_not_mem
    refine (hrest.complete b).length_nodes_le hcompleted.within ?_
    rw [hcompleted.untils]
    exact huntils
  unfold potential
  rw [hwork, List.map_cons, List.sum_cons]
  -- Either a branch is gone, or there is one node less to come, which pays for its branch.
  rcases complete_shape { t with work } b with ⟨hw, hn⟩ | ⟨hw, hn⟩
  · rw [hw, hn]
    dsimp only
    omega
  · have hnew : cost U.length (successor t.nodes.length b.later) = 2 ^ (U.length + 1) - 1 := rfl
    rw [hn] at hbound
    have hleft : 2 ^ (3 * U.length) - t.nodes.length
        = 2 ^ (3 * U.length) - (t.nodes.length + 1) + 1 := by
      have : t.nodes.length + 1 ≤ 2 ^ (3 * U.length) := hbound
      omega
    have hpow : 0 < 2 ^ (U.length + 1) := Nat.two_pow_pos _
    rw [hw, hn, List.map_cons, List.sum_cons, hleft, Nat.add_mul, Nat.one_mul]
    dsimp only
    rw [hnew]
    omega

/-- Every step takes itself off the bound. -/
theorem step_lowers (h : t.Sound U) (hd : t.Distinct) (huntils : t.untils.length ≤ U.length)
    (hwork : t.work ≠ []) : potential U.length t.step < potential U.length t := by
  cases hw : t.work with
  | nil => exact absurd hw hwork
  | cons b work =>
    cases hpop : b.todo.popLeast? with
    | none =>
      rw [step_of_none hw hpop]
      exact complete_lowers hU h hd huntils hw
    | some entry =>
      rw [step_of_some hw hpop]
      exact treat_lowers hU h hw hpop

/-- As many steps as the potential says are enough. -/
theorem run_done (steps : Nat) : ∀ t : Tableau α, t.Sound U → t.Distinct →
    t.untils.length ≤ U.length → potential U.length t ≤ steps → (t.run steps).work = [] := by
  induction steps with
  | zero =>
    intro t h hd huntils hle
    by_contra hwork
    exact absurd (step_lowers hU h hd huntils hwork) (by omega)
  | succ steps ih =>
    intro t h hd huntils hle
    unfold run
    split
    next hempty => exact List.isEmpty_iff.1 hempty
    next hwork =>
      -- every step lowers the potential
      have hlt := step_lowers hU h hd huntils fun hnil => hwork (List.isEmpty_iff.2 hnil)
      refine ih t.step (h.step hU) hd.step ?_ (by omega)
      rw [(step_untils t).1]
      exact huntils

end Lowering

/-- The tableau of a formula is fully grown within its step limit. -/
theorem grow_done {s : List (Formula α)} (hs : Formula.Family s) {root : Formula α}
    (hroot : root ∈ s) (merge : Merge) : (grow merge root).work = [] := by
  have hself : root ∈ root.subformulas := Formula.self_mem_subformulas hs hroot
  refine run_done (hs.subformulas hroot) _ _ (.start hself merge) (.start merge) ?_ ?_
  · exact List.length_filter_le _ _
  -- The root's branch and the nodes that may follow cost less than the limit.
  · have hcost : potential root.subformulas.length (start merge root)
        = 2 ^ (root.subformulas.length + 1) - 1
          + (2 ^ (3 * root.subformulas.length) - 1) * 2 ^ (root.subformulas.length + 1) := rfl
    have hmul : 2 ^ (3 * root.subformulas.length) * 2 ^ (root.subformulas.length + 1)
        = 2 ^ (4 * root.subformulas.length + 1) := by
      rw [← Nat.pow_add]
      congr 1
      omega
    have hle : 2 ^ (4 * root.subformulas.length + 1) ≤ stepLimit root :=
      Nat.pow_le_pow_right (by decide) (by omega)
    have hone : 1 ≤ 2 ^ (3 * root.subformulas.length) := Nat.one_le_two_pow
    have hsplit : (2 ^ (3 * root.subformulas.length) - 1) * 2 ^ (root.subformulas.length + 1)
        = 2 ^ (4 * root.subformulas.length + 1) - 2 ^ (root.subformulas.length + 1) := by
      rw [Nat.sub_mul, hmul, Nat.one_mul]
    have hsmaller : 2 ^ (root.subformulas.length + 1) ≤ 2 ^ (4 * root.subformulas.length + 1) :=
      Nat.pow_le_pow_right (by decide) (by omega)
    have hpos : 0 < 2 ^ root.subformulas.length := Nat.two_pow_pos _
    rw [hcost, hsplit]
    omega

end Tableau
end LinearTime
