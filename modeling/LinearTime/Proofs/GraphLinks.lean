/-
  LinearTime.Proofs.GraphLinks — the links between the edges of a graph.

  The links are determined by which edges there are: a node knows the least of
  the edges that leave it, an edge the least of the later ones from its source
  and the greatest of the earlier ones.

      first v  =  least    { i | i leaves v }
      next i   =  least    { j | j leaves the source of i, i < j }
      prev i   =  greatest { j | j leaves the source of i, j < i }

  Then following the links from a node passes the edges that leave it, each once
  and in ascending order.

  Main results:
    * `Linked.next_iff_prev`, `Linked.first_iff_prev` — the links of two neighbours
      agree.
    * `Linked.mem_edgesFrom`, `Linked.edgesFrom_sorted` — the edges that following
      the links passes.
    * `Linked.modifyNodeAttributes`, `Linked.modifyEdgeAttributes` — the links do
      not depend on attributes.
-/

import Mathlib
import LinearTime.Graph.Basic

namespace LinearTime
namespace Graph

variable {α : Type} {g : Graph α} {i j v : Nat} {e : Edge α}

/-! ## §1. Lookups after changes -/

/-- Changing one edge changes no other edge. -/
theorem edge?_modifyEdge (g : Graph α) (i j : Nat) (f : Edge α → Edge α) :
    (g.modifyEdge i f).edge? j = if i = j then (g.edge? j).map f else g.edge? j := by
  unfold edge? modifyEdge
  show (g.edges.modify i (·.map f))[j]?.join = _
  rw [Array.getElem?_modify]
  split
  next =>
    cases g.edges[j]? with
    | none => rfl
    | some o => rfl
  next => rfl

/-- Changing one node changes no other node. -/
theorem node?_modifyNode (g : Graph α) (i j : Nat) (f : Node → Node) :
    (g.modifyNode i f).node? j = if i = j then (g.node? j).map f else g.node? j := by
  unfold node? modifyNode
  show (g.nodes.modify i (·.map f))[j]?.join = _
  rw [Array.getElem?_modify]
  split
  next =>
    cases g.nodes[j]? with
    | none => rfl
    | some o => rfl
  next => rfl

theorem edge?_modifyNode (g : Graph α) (i j : Nat) (f : Node → Node) :
    (g.modifyNode i f).edge? j = g.edge? j := rfl

theorem node?_modifyEdge (g : Graph α) (i j : Nat) (f : Edge α → Edge α) :
    (g.modifyEdge i f).node? j = g.node? j := rfl

theorem edge?_lt (h : g.edge? i = some e) : i < g.edges.size := by
  by_contra hge
  unfold edge? at h
  rw [Array.getElem?_eq_none (by omega)] at h
  cases h

theorem node?_lt {n : Node} (h : g.node? v = some n) : v < g.nodes.size := by
  by_contra hge
  unfold node? at h
  rw [Array.getElem?_eq_none (by omega)] at h
  cases h

/-- There is a node under an index if the index gives one. -/
theorem hasNode_iff : g.hasNode v = true ↔ ∃ n, g.node? v = some n := Option.isSome_iff_exists

/-- The indices listed are those that have a node. -/
theorem mem_nodeIndices : v ∈ g.nodeIndices ↔ g.hasNode v = true := by
  unfold nodeIndices
  rw [List.mem_filter, List.mem_range]
  constructor
  · exact And.right
  · intro h
    obtain ⟨n, hn⟩ := hasNode_iff.1 h
    exact ⟨node?_lt hn, h⟩

/-- The indices listed are those that have an edge. -/
theorem mem_edgeIndices : i ∈ g.edgeIndices ↔ ∃ e, g.edge? i = some e := by
  unfold edgeIndices
  rw [List.mem_filter, List.mem_range, Option.isSome_iff_exists]
  constructor
  · exact And.right
  · rintro ⟨e, he⟩
    exact ⟨edge?_lt he, e, he⟩

/-- An edge that is cut out is gone; all others stay. -/
theorem edge?_cut (g : Graph α) (i j : Nat) :
    ({ g with edges := g.edges.setIfInBounds i none } : Graph α).edge? j
      = if i = j then none else g.edge? j := by
  unfold edge?
  show (g.edges.setIfInBounds i none)[j]?.join = _
  rw [Array.getElem?_setIfInBounds]
  split
  next => split <;> rfl
  next => rfl

/-- A node that is cut out is gone; all others stay. -/
theorem node?_cut (g : Graph α) (v w : Nat) :
    ({ g with nodes := g.nodes.setIfInBounds v none } : Graph α).node? w
      = if v = w then none else g.node? w := by
  unfold node?
  show (g.nodes.setIfInBounds v none)[w]?.join = _
  rw [Array.getElem?_setIfInBounds]
  split
  next => split <;> rfl
  next => rfl

/-- A new node gets the next index and no edges. -/
theorem node?_addNode (g : Graph α) (a : Attributes) (w : Nat) :
    (g.addNode a).node? w = if w = g.nodes.size then some ⟨a, none⟩ else g.node? w := by
  unfold node? addNode
  show (g.nodes.push (some ⟨a, none⟩))[w]?.join = _
  rw [Array.getElem?_push]
  split <;> rfl

/-- A new edge gets the next index. -/
theorem edge?_push (g : Graph α) (e : Edge α) (j : Nat) :
    ({ g with edges := g.edges.push (some e) } : Graph α).edge? j
      = if j = g.edges.size then some e else g.edge? j := by
  unfold edge?
  show (g.edges.push (some e))[j]?.join = _
  rw [Array.getElem?_push]
  split <;> rfl

/-! ## §2. Least and greatest numbers -/

/-- The least number with a property, if there is one. -/
def Least (P : Nat → Prop) : Option Nat → Prop
  | none => ∀ i, ¬ P i
  | some k => P k ∧ ∀ i, P i → k ≤ i

/-- The greatest number with a property, if there is one. -/
def Greatest (P : Nat → Prop) : Option Nat → Prop
  | none => ∀ i, ¬ P i
  | some k => P k ∧ ∀ i, P i → i ≤ k

theorem Least.congr {P Q : Nat → Prop} {o : Option Nat} (h : Least P o)
    (hPQ : ∀ i, Q i ↔ P i) : Least Q o := by
  rwa [show Q = P from funext fun i => propext (hPQ i)]

theorem Greatest.congr {P Q : Nat → Prop} {o : Option Nat} (h : Greatest P o)
    (hPQ : ∀ i, Q i ↔ P i) : Greatest Q o := by
  rwa [show Q = P from funext fun i => propext (hPQ i)]

/-- There is no least number with a property if no number has it. -/
theorem Least.eq_none_iff {P : Nat → Prop} {o : Option Nat} (h : Least P o) :
    o = none ↔ ∀ i, ¬ P i := by
  cases o with
  | none => exact iff_of_true rfl h
  | some k => exact iff_of_false (by simp) fun hnone => hnone k h.1

/-- The least number with a property has it, and no smaller one does. -/
theorem Least.eq_some_iff {P : Nat → Prop} {o : Option Nat} (h : Least P o) {k : Nat} :
    o = some k ↔ P k ∧ ∀ i, P i → k ≤ i := by
  constructor
  · rintro rfl
    exact h
  · rintro ⟨hk, hle⟩
    cases o with
    | none => exact absurd hk (h k)
    | some m => rw [Nat.le_antisymm (h.2 k hk) (hle m h.1)]

/-- There is no greatest number with a property if no number has it. -/
theorem Greatest.eq_none_iff {P : Nat → Prop} {o : Option Nat} (h : Greatest P o) :
    o = none ↔ ∀ i, ¬ P i := by
  cases o with
  | none => exact iff_of_true rfl h
  | some k => exact iff_of_false (by simp) fun hnone => hnone k h.1

/-- The greatest number with a property has it, and no larger one does. -/
theorem Greatest.eq_some_iff {P : Nat → Prop} {o : Option Nat} (h : Greatest P o) {k : Nat} :
    o = some k ↔ P k ∧ ∀ i, P i → i ≤ k := by
  constructor
  · rintro rfl
    exact h
  · rintro ⟨hk, hle⟩
    cases o with
    | none => exact absurd hk (h k)
    | some m => rw [Nat.le_antisymm (hle m h.1) (h.2 k hk)]

/-- Only one number is the least one with a property. -/
theorem Least.unique {P : Nat → Prop} {o o' : Option Nat} (h : Least P o) (h' : Least P o') :
    o = o' := by
  cases o' with
  | none => exact h.eq_none_iff.2 h'
  | some k => exact h.eq_some_iff.2 h'

/-- Only one number is the greatest one with a property. -/
theorem Greatest.unique {P : Nat → Prop} {o o' : Option Nat} (h : Greatest P o)
    (h' : Greatest P o') : o = o' := by
  cases o' with
  | none => exact h.eq_none_iff.2 h'
  | some k => exact h.eq_some_iff.2 h'

/-- In a set, `i` comes directly behind `j` if `j` stands directly before `i`. -/
theorem Least.eq_some_iff_greatest {S : Nat → Prop} {i j : Nat} {after before : Option Nat}
    (hafter : Least (fun k => S k ∧ j < k) after) (hbefore : Greatest (fun k => S k ∧ k < i) before)
    (hi : S i) (hj : S j) : after = some i ↔ before = some j := by
  rw [hafter.eq_some_iff, hbefore.eq_some_iff]
  -- nothing of `S` lies between the two
  constructor
  · rintro ⟨⟨-, hlt⟩, hleast⟩
    refine ⟨⟨hj, hlt⟩, fun k hk => ?_⟩
    by_contra hjk
    have := hleast k ⟨hk.1, by omega⟩
    have := hk.2
    omega
  · rintro ⟨⟨-, hlt⟩, hgreatest⟩
    refine ⟨⟨hi, hlt⟩, fun k hk => ?_⟩
    by_contra hki
    have := hgreatest k ⟨hk.1, by omega⟩
    have := hk.2
    omega

/-- The least number, once `i` is taken out of a set. -/
theorem Least.without {P : Nat → Prop} {i : Nat} {o after : Option Nat} (h : Least P o)
    (hafter : o = some i → Least (fun k => P k ∧ i < k) after) :
    Least (fun k => P k ∧ k ≠ i) (if o = some i then after else o) := by
  split
  next hi =>
    obtain ⟨-, hleast⟩ := h.eq_some_iff.1 hi
    exact (hafter hi).congr fun k => and_congr_right fun hk =>
      ⟨fun hne => lt_of_le_of_ne (hleast k hk) (Ne.symm hne), fun hlt => hlt.ne'⟩
  next hi =>
    cases o with
    | none => exact fun k hk => h k hk.1
    | some m => exact ⟨⟨h.1, fun hm => hi (by rw [hm])⟩, fun k hk => h.2 k hk.1⟩

/-- The greatest number, once `i` is taken out of a set. -/
theorem Greatest.without {P : Nat → Prop} {i : Nat} {o before : Option Nat} (h : Greatest P o)
    (hbefore : o = some i → Greatest (fun k => P k ∧ k < i) before) :
    Greatest (fun k => P k ∧ k ≠ i) (if o = some i then before else o) := by
  split
  next hi =>
    obtain ⟨-, hgreatest⟩ := h.eq_some_iff.1 hi
    exact (hbefore hi).congr fun k => and_congr_right fun hk =>
      ⟨fun hne => lt_of_le_of_ne (hgreatest k hk) hne, fun hlt => hlt.ne⟩
  next hi =>
    cases o with
    | none => exact fun k hk => h k hk.1
    | some m => exact ⟨⟨h.1, fun hm => hi (by rw [hm])⟩, fun k hk => h.2 k hk.1⟩

/-- A number above all others is the least one only where there is no other. -/
theorem Least.or_above {P : Nat → Prop} {o : Option Nat} {n : Nat} (h : Least P o)
    (habove : ∀ k, P k → k < n) :
    Least (fun k => P k ∨ k = n) (if o = none then some n else o) := by
  cases o with
  | none =>
    refine ⟨.inr rfl, ?_⟩
    rintro k (hk | rfl)
    · exact absurd hk (h k)
    · exact le_refl _
  | some m =>
    refine ⟨.inl h.1, ?_⟩
    rintro k (hk | rfl)
    · exact h.2 k hk
    · exact (habove m h.1).le

/-! ## §3. Links -/

/-- The edge is there and leaves `v`. -/
def Leaves (g : Graph α) (v i : Nat) : Prop := ∃ e, g.edge? i = some e ∧ e.source = v

/-- Edges have end points, and links lead to the neighbours. -/
structure Linked (g : Graph α) : Prop where
  source : ∀ i e, g.edge? i = some e → g.hasNode e.source = true
  target : ∀ i e, g.edge? i = some e → g.hasNode e.target = true
  first : ∀ v n, g.node? v = some n → Least (g.Leaves v) n.first
  next : ∀ i e, g.edge? i = some e → Least (fun j => g.Leaves e.source j ∧ i < j) e.next
  prev : ∀ i e, g.edge? i = some e → Greatest (fun j => g.Leaves e.source j ∧ j < i) e.prev

theorem Leaves.source_eq (h : g.Leaves v i) (he : g.edge? i = some e) : e.source = v := by
  obtain ⟨f, hf, hv⟩ := h
  obtain rfl := Option.some.inj (he.symm.trans hf)
  exact hv

/-- The links to the next and to the previous edge are inverse to each other. -/
theorem Linked.next_iff_prev (h : g.Linked) {f : Edge α} (hf : g.edge? j = some f)
    (he : g.edge? i = some e) : f.next = some i ↔ e.prev = some j := by
  have hnext := h.next j f hf
  have hprev := h.prev i e he
  have hsource (hor : f.next = some i ∨ e.prev = some j) : f.source = e.source := by
    rcases hor with hi | hj
    · exact ((hnext.eq_some_iff.1 hi).1.1.source_eq he).symm
    · exact (hprev.eq_some_iff.1 hj).1.1.source_eq hf
  by_cases heq : f.source = e.source
  · rw [heq] at hnext
    exact hnext.eq_some_iff_greatest hprev ⟨e, he, rfl⟩ ⟨f, hf, heq⟩
  · exact iff_of_false (fun hi => heq (hsource (.inl hi))) fun hj => heq (hsource (.inr hj))

/-- The first edge of a node is the one before which there is none. -/
theorem Linked.first_iff_prev (h : g.Linked) {n : Node} (hn : g.node? v = some n)
    (he : g.edge? i = some e) : n.first = some i ↔ e.prev = none ∧ v = e.source := by
  rw [(h.first v n hn).eq_some_iff, (h.prev i e he).eq_none_iff]
  constructor
  · rintro ⟨hi, hleast⟩
    obtain rfl := hi.source_eq he
    exact ⟨fun k hk => absurd (hleast k hk.1) (by omega), rfl⟩
  · rintro ⟨hnone, rfl⟩
    refine ⟨⟨e, he, rfl⟩, fun k hk => ?_⟩
    by_contra hlt
    exact hnone k ⟨hk, by omega⟩

/-- Following the links from the least edge that is not below `low`. -/
theorem Linked.mem_follow (h : g.Linked) {steps low : Nat} {o : Option Nat}
    (ho : Least (fun j => g.Leaves v j ∧ low ≤ j) o) (hsteps : g.edges.size ≤ low + steps) :
    (i, e) ∈ g.follow steps o ↔ g.edge? i = some e ∧ e.source = v ∧ low ≤ i := by
  induction steps generalizing low o with
  | zero =>
    refine iff_of_false List.not_mem_nil ?_
    rintro ⟨hi, -, hle⟩
    have := edge?_lt hi
    omega
  | succ steps ih =>
    cases o with
    | none =>
      refine iff_of_false List.not_mem_nil ?_
      rintro ⟨hi, hv, hle⟩
      exact ho i ⟨⟨e, hi, hv⟩, hle⟩
    | some k =>
      obtain ⟨⟨⟨f, hf, hfv⟩, hlow⟩, hleast⟩ := ho
      unfold follow
      simp only [hf, List.mem_cons, Prod.mk.injEq]
      have hnext : Least (fun j => g.Leaves v j ∧ k + 1 ≤ j) f.next := by
        refine (h.next k f hf).congr fun j => ?_
        rw [hfv]
        exact Iff.rfl
      -- The next edge is the least of those that are larger, so none is left out.
      rw [ih hnext (by omega)]
      constructor
      · rintro (⟨rfl, rfl⟩ | ⟨hi, hv, hki⟩)
        · exact ⟨hf, hfv, hlow⟩
        · exact ⟨hi, hv, by omega⟩
      · rintro ⟨hi, hv, hle⟩
        have hki := hleast i ⟨⟨e, hi, hv⟩, hle⟩
        by_cases heq : i = k
        · subst heq
          rw [hi] at hf
          exact .inl ⟨rfl, Option.some.inj hf⟩
        · exact .inr ⟨hi, hv, by omega⟩

/-- Along the list of a node, the indices of its edges go up. -/
theorem Linked.follow_sorted (h : g.Linked) {steps : Nat} {o : Option Nat} :
    (∀ k, o = some k → ∀ p ∈ g.follow steps o, k ≤ p.1)
      ∧ (g.follow steps o).Pairwise fun p q => p.1 < q.1 := by
  induction steps generalizing o with
  | zero => exact ⟨fun k _ p hp => absurd hp List.not_mem_nil, List.Pairwise.nil⟩
  | succ steps ih =>
    cases o with
    | none => exact ⟨fun k _ p hp => absurd hp List.not_mem_nil, List.Pairwise.nil⟩
    | some k =>
      unfold follow
      cases hf : g.edge? k with
      | none => exact ⟨fun k _ p hp => absurd hp List.not_mem_nil, List.Pairwise.nil⟩
      | some f =>
        obtain ⟨hlow, hsorted⟩ := ih (o := f.next)
        -- A link leads to a larger number, and the rest of the list is larger still.
        have hlater : ∀ p ∈ g.follow steps f.next, k < p.1 := by
          intro p hp
          have hnext := h.next k f hf
          cases hn : f.next with
          | none =>
            rw [hn] at hp
            cases steps <;> exact absurd hp List.not_mem_nil
          | some m =>
            rw [hn] at hnext
            have hkm : k < m := hnext.1.2
            have := hlow m hn p hp
            omega
        refine ⟨fun k' hk' p hp => ?_, List.pairwise_cons.2 ⟨hlater, hsorted⟩⟩
        obtain rfl := Option.some.inj hk'
        rcases List.mem_cons.1 hp with rfl | hp
        · exact le_refl _
        · exact (hlater p hp).le

/-- Following the links from a node passes the edges that leave it. -/
theorem Linked.mem_edgesFrom (h : g.Linked) :
    (i, e) ∈ g.edgesFrom v ↔ g.edge? i = some e ∧ e.source = v := by
  unfold edgesFrom
  -- the list starts at the least edge of the node
  have hfirst : Least (fun j => g.Leaves v j ∧ 0 ≤ j) ((g.node? v).bind (·.first)) := by
    cases hn : g.node? v with
    | none =>
      rintro j ⟨⟨f, hf, rfl⟩, -⟩
      obtain ⟨n, hn'⟩ := hasNode_iff.1 (h.source j f hf)
      rw [hn] at hn'
      cases hn'
    | some n => exact (h.first v n hn).congr fun j => and_iff_left (Nat.zero_le j)
  rw [h.mem_follow hfirst (by omega)]
  constructor
  · rintro ⟨hi, hv, -⟩
    exact ⟨hi, hv⟩
  · rintro ⟨hi, hv⟩
    exact ⟨hi, hv, Nat.zero_le i⟩

/-- They come in ascending order, so each comes once. -/
theorem Linked.edgesFrom_sorted (h : g.Linked) (v : Nat) :
    (g.edgesFrom v).Pairwise fun p q => p.1 < q.1 := h.follow_sorted.2

/-- The last edge that is passed is the greatest. -/
theorem Linked.greatest_last (h : g.Linked) (v : Nat) :
    Greatest (g.Leaves v) ((g.edgesFrom v).getLast?.map (·.1)) := by
  cases hlast : (g.edgesFrom v).getLast? with
  | none =>
    rintro j ⟨f, hf, hv⟩
    have hmem := h.mem_edgesFrom.2 ⟨hf, hv⟩
    rw [List.getLast?_eq_none_iff.1 hlast] at hmem
    exact absurd hmem List.not_mem_nil
  | some p =>
    obtain ⟨ps, hps⟩ := List.getLast?_eq_some_iff.1 hlast
    have hp : (p.1, p.2) ∈ g.edgesFrom v := by
      rw [hps]
      simp
    -- The list holds all edges of the node and ascends, so its last is the greatest.
    obtain ⟨hedge, hv⟩ := h.mem_edgesFrom.1 hp
    refine ⟨⟨p.2, hedge, hv⟩, ?_⟩
    rintro j ⟨f, hf, hfv⟩
    have hmem := h.mem_edgesFrom.2 ⟨hf, hfv⟩
    have hsorted := h.edgesFrom_sorted v
    rw [hps] at hmem hsorted
    rcases List.mem_append.1 hmem with hmem | hmem
    · exact ((List.pairwise_append.1 hsorted).2.2 _ hmem p List.mem_cons_self).le
    · rw [← List.mem_singleton.1 hmem]

/-! ## §4. Attributes -/

/-- An edge without its links. -/
def Edge.bare (e : Edge α) : Edge α := { e with prev := none, next := none }

/-- The edge with this index, without its links. -/
def bareEdge? (g : Graph α) (i : Nat) : Option (Edge α) := (g.edge? i).map Edge.bare

/-- The attributes of a node. -/
def attributes? (g : Graph α) (v : Nat) : Option Attributes := (g.node? v).map (·.attributes)

/-- Which edges leave a node can be seen without their links. -/
theorem leaves_iff_bareEdge? : g.Leaves v i ↔ ∃ e, g.bareEdge? i = some e ∧ e.source = v := by
  unfold Leaves bareEdge?
  cases g.edge? i <;> simp [Edge.bare]

/-- Behind an edge seen without its links there is one with them. -/
theorem edge?_of_bareEdge? {b : Edge α} (h : g.bareEdge? i = some b) :
    ∃ e, g.edge? i = some e ∧ e.source = b.source ∧ e.target = b.target
      ∧ e.attributes = b.attributes := by
  obtain ⟨e, he, rfl⟩ := Option.map_eq_some_iff.1 h
  exact ⟨e, he, rfl, rfl, rfl⟩

/-- What is seen of an edge if its links are left out. -/
theorem bareEdge?_of_edge? {e : Edge α} (h : g.edge? i = some e) :
    g.bareEdge? i = some e.bare := by
  unfold bareEdge?
  rw [h]
  rfl

theorem node?_of_attributes? {a : Attributes} (h : g.attributes? v = some a) :
    ∃ n, g.node? v = some n ∧ n.attributes = a := Option.map_eq_some_iff.1 h

theorem attributes?_of_node? {n : Node} (h : g.node? v = some n) :
    g.attributes? v = some n.attributes := by
  unfold attributes?
  rw [h]
  rfl

/-- Leaving out the links keeps all the rest of an edge. -/
theorem Edge.fields_of_bare {e b : Edge α} (h : e.bare = b) : e.source = b.source
    ∧ e.target = b.target ∧ e.guard = b.guard ∧ e.action = b.action
    ∧ e.attributes = b.attributes := by
  rw [← h]
  exact ⟨rfl, rfl, rfl, rfl, rfl⟩

theorem attributes?_eq_none (h : g.node? v = none) : g.attributes? v = none := by
  unfold attributes?
  rw [h]
  rfl

theorem bareEdge?_eq_none (h : g.edge? i = none) : g.bareEdge? i = none := by
  unfold bareEdge?
  rw [h]
  rfl

/-- Changing the attributes of one node changes those of no other. -/
theorem attributes?_modifyNodeAttributes (g : Graph α) (v w : Nat) (f : Attributes → Attributes) :
    (g.modifyNodeAttributes v f).attributes? w
      = if w = v then (g.attributes? w).map f else g.attributes? w := by
  unfold attributes? modifyNodeAttributes
  rw [node?_modifyNode]
  by_cases hw : w = v
  · simp [hw, Function.comp_def]
  · simp [hw, Ne.symm hw]

/-- Changing the attributes of one edge changes nothing else of any edge. -/
theorem bareEdge?_modifyEdgeAttributes (g : Graph α) (i j : Nat) (f : Attributes → Attributes) :
    (g.modifyEdgeAttributes i f).bareEdge? j
      = if j = i then (g.bareEdge? j).map fun e => { e with attributes := f e.attributes }
        else g.bareEdge? j := by
  unfold bareEdge? modifyEdgeAttributes
  rw [edge?_modifyEdge]
  by_cases hj : j = i
  · simp [hj, Function.comp_def, Edge.bare]
  · simp [hj, Ne.symm hj]

/-- The attributes of nodes play no part in the links. -/
theorem Linked.modifyNodeAttributes (h : g.Linked) (v : Nat) (f : Attributes → Attributes) :
    (g.modifyNodeAttributes v f).Linked := by
  -- Only attributes differ: first edges, and who has a node, stay.
  have hnode (w : Nat) (n : Node) (hn : (g.modifyNodeAttributes v f).node? w = some n) :
      ∃ m, g.node? w = some m ∧ n.first = m.first := by
    unfold Graph.modifyNodeAttributes at hn
    rw [node?_modifyNode] at hn
    split at hn
    · obtain ⟨m, hm, rfl⟩ := Option.map_eq_some_iff.1 hn
      exact ⟨m, hm, rfl⟩
    · exact ⟨n, hn, rfl⟩
  have hhas (w : Nat) (hw : g.hasNode w = true) :
      (g.modifyNodeAttributes v f).hasNode w = true := by
    unfold hasNode Graph.modifyNodeAttributes at *
    rw [node?_modifyNode]
    split
    · rw [Option.isSome_map]
      exact hw
    · exact hw
  refine ⟨fun i e he => hhas _ (h.source i e he), fun i e he => hhas _ (h.target i e he), ?_,
    h.next, h.prev⟩
  intro w n hn
  obtain ⟨m, hm, hfirst⟩ := hnode w n hn
  rw [hfirst]
  exact h.first w m hm

/-- The attributes of edges play no part in the links. -/
theorem Linked.modifyEdgeAttributes (h : g.Linked) (i : Nat) (f : Attributes → Attributes) :
    (g.modifyEdgeAttributes i f).Linked := by
  -- Only attributes differ, and no field of a linked graph reads them.
  have hedge (j : Nat) (e : Edge α) (he : (g.modifyEdgeAttributes i f).edge? j = some e) :
      ∃ e', g.edge? j = some e' ∧ e.source = e'.source ∧ e.target = e'.target
        ∧ e.prev = e'.prev ∧ e.next = e'.next := by
    unfold Graph.modifyEdgeAttributes at he
    rw [edge?_modifyEdge] at he
    split at he
    · obtain ⟨e', he', rfl⟩ := Option.map_eq_some_iff.1 he
      exact ⟨e', he', rfl, rfl, rfl, rfl⟩
    · exact ⟨e, he, rfl, rfl, rfl, rfl⟩
  have hleaves (w j : Nat) : (g.modifyEdgeAttributes i f).Leaves w j ↔ g.Leaves w j := by
    constructor
    · rintro ⟨e, he, rfl⟩
      obtain ⟨e', he', hs, -⟩ := hedge j e he
      exact ⟨e', he', hs.symm⟩
    · rintro ⟨e, he, rfl⟩
      unfold Leaves Graph.modifyEdgeAttributes
      rw [edge?_modifyEdge, he]
      split <;> exact ⟨_, rfl, rfl⟩
  exact {
    source j e he := by
      obtain ⟨e', he', hs, -⟩ := hedge j e he
      rw [hs]
      exact h.source j e' he'
    target j e he := by
      obtain ⟨e', he', -, ht, -⟩ := hedge j e he
      rw [ht]
      exact h.target j e' he'
    first w n hn := (h.first w n hn).congr fun j => hleaves w j
    next j e he := by
      obtain ⟨e', he', hs, -, -, hn⟩ := hedge j e he
      rw [hs, hn]
      exact (h.next j e' he').congr fun k => and_congr_left' (hleaves _ k)
    prev j e he := by
      obtain ⟨e', he', hs, -, hp, -⟩ := hedge j e he
      rw [hs, hp]
      exact (h.prev j e' he').congr fun k => and_congr_left' (hleaves _ k) }

end Graph
end LinearTime
