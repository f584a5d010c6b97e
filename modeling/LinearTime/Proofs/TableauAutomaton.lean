/-
  LinearTime.Proofs.TableauAutomaton — the automaton of a fully grown tableau.

  Nodes of one class ask for the same formulas next, so a state of the automaton
  stands for a set of formulas that is asked for.  The transitions of a state
  are the completions of that set: the guard lists the literals among the
  formulas of now, the target stands for the formulas next.  A transition that
  equals one that is there already is left out, but then the one that is there
  does for both.

  Main results:
    * `classes_covers` — the division of the nodes into classes.
    * `Automaton.Unfolds` — the transitions of a state are the completions of
      what it asks for.
    * `Tableau.toAutomaton_wellFormed` — transitions lead to states, whatever the
      tableau.
    * `Tableau.exists_unfolds` — the automaton of a finished tableau does that.
    * `Tableau.askedBy_injective` — under the coarser strategy no two states ask for
      the same.
-/

import LinearTime.Tableau.Automaton
import LinearTime.Proofs.AcceptedWords
import LinearTime.Proofs.GrowthBound
import LinearTime.Proofs.Guards
import LinearTime.Proofs.Traversals

namespace LinearTime

variable {α : Type}

namespace Tableau

variable {U : List (Formula α)} {t : Tableau α}

/-! ## §1. Classes -/

/-- The first `m` nodes are divided into classes: a node asks for what the first
    node of its class asks for, and the first class starts with the first node.
    Under the coarser strategy no two classes ask for the same. -/
structure Classes.Covers (t : Tableau α) (c : Classes) (m : Nat) : Prop where
  length : c.ofNode.length = m
  same : ∀ i k : Nat, c.ofNode[i]? = some k → ∃ r x y, c.first[k]? = some r
    ∧ t.later? r = some x ∧ t.later? i = some y ∧ (x == y) = true
  own : ∀ k r : Nat, c.first[k]? = some r → c.ofNode[r]? = some k
  zero : ∀ r : Nat, c.first[0]? = some r → r = 0
  nonempty : 0 < m → c.first ≠ []
  apart : t.merge = .nextAndPending → ∀ (k l r s : Nat) (x y : FormulaSet α),
    c.first[k]? = some r → c.first[l]? = some s → t.later? r = some x → t.later? s = some y →
      (x == y) = true → k = l

section Classes

variable {c : Classes} {m : Nat} {n : Node α}

/-- The next node is put into a class whose first node asks for the same. -/
theorem Classes.Covers.join (h : c.Covers t m) (hn : t.nodes[m]? = some n) {k r : Nat}
    {x : FormulaSet α} (hr : c.first[k]? = some r) (hx : t.later? r = some x)
    (hsame : (x == n.later) = true) :
    Classes.Covers t { c with ofNode := c.ofNode ++ [k] } (m + 1) := by
  exact {
    length := by
      rw [List.length_append, h.length, List.length_singleton]
    same := by
      intro i k' hi
      rcases getElem?_concat_some hi with hi | ⟨rfl, rfl⟩
      · exact h.same i k' hi
      · rw [h.length]
        exact ⟨r, x, n.later, hr, hx, later?_of_getElem? hn, hsame⟩
    own := by
      intro k' r' hr'
      exact getElem?_concat_of_some (h.own k' r' hr') k
    zero := h.zero
    nonempty := by
      intro _ hnil
      rw [show c.first = [] from hnil] at hr
      cases hr
    apart := h.apart }

/-- The next node starts a class, which under the coarser strategy asks for
    something that no class asks for. -/
theorem Classes.Covers.start (h : c.Covers t m) (hn : t.nodes[m]? = some n)
    (hfresh : t.merge = .nextAndPending → ∀ r ∈ c.first, ∀ x, t.later? r = some x →
      ¬ (x == n.later) = true) :
    Classes.Covers t ⟨c.first ++ [c.ofNode.length], c.ofNode ++ [c.first.length]⟩ (m + 1) := by
  have hlater : t.later? c.ofNode.length = some n.later := by
    rw [h.length]
    exact later?_of_getElem? hn
  exact {
    length := by
      rw [List.length_append, h.length, List.length_singleton]
    same := by
      intro i k hi
      rcases getElem?_concat_some hi with hi | ⟨rfl, rfl⟩
      · obtain ⟨r, x, y, hr, hrest⟩ := h.same i k hi
        exact ⟨r, x, y, getElem?_concat_of_some hr _, hrest⟩
      · exact ⟨_, n.later, n.later, List.getElem?_concat_length, hlater, hlater,
          OrderedSet.beq_refl _⟩
    own := by
      intro k r hr
      rcases getElem?_concat_some hr with hr | ⟨rfl, rfl⟩
      · exact getElem?_concat_of_some (h.own k r hr) _
      · exact List.getElem?_concat_length
    zero := by
      intro r hr
      rcases getElem?_concat_some hr with hr | ⟨hlen, rfl⟩
      · exact h.zero r hr
      · -- the class is the first one, so its node is
        by_contra hpos
        have hne := h.nonempty (by rw [← h.length]; omega)
        exact hne (List.length_eq_zero_iff.1 hlen.symm)
    nonempty := fun _ => by simp
    apart := by
      intro hmerge k l r s x y hr hs hx hy hxy
      have hown (z : FormulaSet α) (hz : t.later? c.ofNode.length = some z) : z = n.later :=
        Option.some.inj (hz.symm.trans hlater)
      rcases getElem?_concat_some hr with hr | ⟨rfl, rfl⟩
      · rcases getElem?_concat_some hs with hs | ⟨rfl, rfl⟩
        · exact h.apart hmerge k l r s x y hr hs hx hy hxy
        · rw [hown y hy] at hxy
          exact absurd hxy (hfresh hmerge r (List.mem_of_getElem? hr) x hx)
      · rcases getElem?_concat_some hs with hs | ⟨rfl, rfl⟩
        · rw [hown x hx] at hxy
          have hyx := OrderedSet.beq_iff.2 (OrderedSet.beq_iff.1 hxy).symm
          exact absurd hyx (hfresh hmerge s (List.mem_of_getElem? hs) y hy)
        · rfl }

/-- Adding a node keeps the classes covering what they cover, and covers the node. -/
theorem Classes.Covers.add (h : c.Covers t m) (hn : t.nodes[m]? = some n) :
    (Classes.add t c n).Covers t (m + 1) := by
  unfold Classes.add
  dsimp only
  cases hmerge : t.merge with
  | identical => exact h.start hn fun hcoarse => by rw [hmerge] at hcoarse; cases hcoarse
  | nextAndPending =>
    dsimp only
    cases hfind : c.first.findIdx? fun i => (t.nodes[i]?).any fun m => m.later == n.later with
    | none =>
      refine h.start hn fun _ r hr x hx hsame => ?_
      have hnone := List.findIdx?_eq_none_iff.1 hfind r hr
      obtain ⟨m', hm', rfl⟩ := Option.map_eq_some_iff.1 hx
      rw [hm'] at hnone
      exact absurd (hsame.symm.trans hnone) (by decide)
    | some k =>
      obtain ⟨hk, hany, -⟩ := List.findIdx?_eq_some_iff_getElem.1 hfind
      have hget : c.first[k]? = some c.first[k] := List.getElem?_eq_getElem hk
      obtain ⟨m', hm', hsame⟩ := Option.any_eq_true .. |>.mp hany
      exact h.join hn hget (later?_of_getElem? hm') hsame

end Classes

/-- The classes of a tableau cover all its nodes. -/
theorem classes_covers (t : Tableau α) : t.classes.Covers t t.nodes.length := by
  -- By induction on the nodes to come, with those done before them.
  have hfold (rest : List (Node α)) : ∀ (done : List (Node α)) (c : Classes),
      t.nodes = done ++ rest → c.Covers t done.length →
        (rest.foldl (Classes.add t) c).Covers t t.nodes.length := by
    induction rest with
    | nil =>
      intro done c hnodes hc
      rw [hnodes, List.append_nil]
      exact hc
    | cons n rest ih =>
      intro done c hnodes hc
      have hn : t.nodes[done.length]? = some n := by
        rw [hnodes, List.getElem?_append_right (le_refl _), Nat.sub_self]
        rfl
      refine ih (done ++ [n]) _ ?_ ?_
      · rw [hnodes, List.append_assoc]
        rfl
      · rw [List.length_append, List.length_singleton]
        exact hc.add hn
  refine hfold t.nodes [] {} rfl ⟨rfl, ?_, ?_, ?_, ?_, ?_⟩
  · intro i k hi
    cases hi
  · intro k r hr
    cases hr
  · intro r hr
    cases hr
  · intro hpos
    exact absurd hpos (lt_irrefl _)
  · intro _ k l r s x y hr
    cases hr

/-! ## §2. Ways of entering nodes as transitions -/

/-- The transition for a way of entering a node of class `k`. -/
def transitionOf (t : Tableau α) (k : Nat) (n : Node α) (e : Entry α) : Transition α where
  guard := Guard.literalsOf e.now.toList
  target := k
  accepting := acceptance t.untils n.pending
  safety := isSafety t.untils e.now n.later

/-- The transitions into a node, each with the class it comes from. -/
def linksInto (t : Tableau α) (classOf : Nat → Nat) (k : Nat) (n : Node α) :
    List (Nat × Transition α) :=
  (n.entries.map fun e => e.origins.toList.map fun o => (classOf o, t.transitionOf k n e)).flatten

/-- The transitions into a class for a node are built without an error. -/
theorem entering_eq (t : Tableau α) (classOf : Nat → Nat) (k : Nat) {n : Node α}
    (hn : n.Within U) : t.entering classOf k n = .ok (t.linksInto classOf k n) := by
  unfold entering
  rw [mapM_eq_ok n.entries (g := fun e =>
    e.origins.toList.map fun o => (classOf o, t.transitionOf k n e))]
  · rfl
  · intro e he
    rw [Guard.ofFormulas_eq e.now.toList (hn.now e he).2]
    rfl

/-- Whenever there are transitions into a node, they lead to its class. -/
theorem target_of_entering {classOf : Nat → Nat} {k : Nat} {n : Node α}
    {into : List (Nat × Transition α)} (h : t.entering classOf k n = .ok into)
    {link : Nat × Transition α} (hlink : link ∈ into) : link.2.target = k := by
  unfold entering at h
  generalize hentries : List.mapM (m := Except (NotLiteral α)) _ n.entries = perEntry at h
  cases perEntry with
  | error e => cases h
  | ok perEntry =>
    obtain rfl : perEntry.flatten = into := Except.ok.inj h
    obtain ⟨l, hl, hmem⟩ := List.mem_flatten.1 hlink
    obtain ⟨e, -, he⟩ := mem_of_mapM_eq_ok hentries hl
    generalize Guard.ofFormulas e.now.toList = guard at he
    cases guard with
    | error e => cases he
    | ok guard =>
      obtain rfl := Except.ok.inj he
      obtain ⟨o, -, rfl⟩ := List.mem_map.1 hmem
      rfl

/-- The class of a node. -/
def classOf (t : Tableau α) (i : Nat) : Nat := t.classes.ofNode[i]?.getD 0

/-- The transitions of the automaton, each with the state it leaves. -/
def links (t : Tableau α) : List (Nat × Transition α) :=
  ((t.nodes.zip t.classes.ofNode).map fun (n, k) => t.linksInto t.classOf k n).flatten

/-- A link goes from the class of an origin of an entry to the class of the entry's node. -/
theorem mem_links {q : Nat} {tr : Transition α} : (q, tr) ∈ t.links ↔
    ∃ (i k : Nat) (n : Node α), t.nodes[i]? = some n ∧ t.classes.ofNode[i]? = some k
      ∧ ∃ e ∈ n.entries, ∃ o ∈ e.origins, q = t.classOf o ∧ tr = t.transitionOf k n e := by
  unfold links linksInto
  constructor
  · intro h
    obtain ⟨l, hl, hmem⟩ := List.mem_flatten.1 h
    obtain ⟨⟨n, k⟩, hnk, rfl⟩ := List.mem_map.1 hl
    obtain ⟨i, hi⟩ := List.mem_iff_getElem?.1 hnk
    obtain ⟨hn, hk⟩ := List.getElem?_zip_eq_some.1 hi
    obtain ⟨l', hl', hmem'⟩ := List.mem_flatten.1 hmem
    obtain ⟨e, he, rfl⟩ := List.mem_map.1 hl'
    obtain ⟨o, ho, heq⟩ := List.mem_map.1 hmem'
    obtain ⟨rfl, rfl⟩ := Prod.mk.inj heq
    exact ⟨i, k, n, hn, hk, e, he, o, ho, rfl, rfl⟩
  · rintro ⟨i, k, n, hn, hk, e, he, o, ho, rfl, rfl⟩
    refine List.mem_flatten.2 ⟨_, List.mem_map.2 ⟨(n, k), ?_, rfl⟩, ?_⟩
    · exact List.mem_iff_getElem?.2 ⟨i, List.getElem?_zip_eq_some.2 ⟨hn, hk⟩⟩
    · exact List.mem_flatten.2 ⟨_, List.mem_map.2 ⟨e, he, rfl⟩, List.mem_map.2 ⟨o, ho, rfl⟩⟩

/-! ## §3. Adding transitions to states -/

end Tableau

/-- Equal transitions have the same parts, guards as far as guards are told apart. -/
theorem Transition.beq_iff [BEq α] {t u : Transition α} : (t == u) = true ↔
    t.target = u.target ∧ t.accepting = u.accepting ∧ t.safety = u.safety
      ∧ (t.guard == u.guard) = true := by
  show (t.target == u.target && t.accepting == u.accepting && t.safety == u.safety
    && t.guard == u.guard) = true ↔ _
  simp only [Bool.and_eq_true, beq_iff_eq, and_assoc]
  have hmarks : (t.accepting == u.accepting) = true ↔ t.accepting = u.accepting :=
    ⟨IndexSet.eq_of_beq, fun h => h ▸ OrderedSet.beq_refl _⟩
  rw [hmarks]

/-- Equality of transitions is an equivalence. -/
instance [BEq α] [EquivBEq α] : EquivBEq (Transition α) where
  rfl := Transition.beq_iff.2 ⟨rfl, rfl, rfl, BEq.rfl⟩
  symm h := by
    obtain ⟨htarget, haccepting, hsafety, hguard⟩ := Transition.beq_iff.1 h
    exact Transition.beq_iff.2 ⟨htarget.symm, haccepting.symm, hsafety.symm, BEq.symm hguard⟩
  trans h h' := by
    obtain ⟨htarget, haccepting, hsafety, hguard⟩ := Transition.beq_iff.1 h
    obtain ⟨htarget', haccepting', hsafety', hguard'⟩ := Transition.beq_iff.1 h'
    exact Transition.beq_iff.2 ⟨htarget.trans htarget', haccepting.trans haccepting',
      hsafety.trans hsafety', BEq.trans hguard hguard'⟩

namespace Tableau

variable {U : List (Formula α)} {t : Tableau α}

/-- The states with the transitions added one after the other. -/
def addAll [BEq α] (states : List (State α)) (links : List (Nat × Transition α)) :
    List (State α) :=
  links.foldl (fun states link => states.modify link.1 (·.add link.2)) states

/-- The transitions of a state on a list of states. -/
def transitionsAt (states : List (State α)) (q : Nat) : List (Transition α) :=
  ((states[q]?).map State.transitions).getD []

theorem mem_transitionsAt {states : List (State α)} {q : Nat} {tr : Transition α} :
    tr ∈ transitionsAt states q ↔ ∃ s, states[q]? = some s ∧ tr ∈ s.transitions := by
  unfold transitionsAt
  cases states[q]? with
  | none => simp
  | some s => simp

section Adding

variable [BEq α] {states : List (State α)} {q r : Nat} {tr tr' : Transition α}

/-- Adding a transition to a state adds no other. -/
theorem mem_add (s : State α) :
    tr' ∈ (s.add tr).transitions → tr' ∈ s.transitions ∨ tr' = tr := by
  unfold State.add
  split
  · exact .inl
  · intro h
    exact (List.mem_append.1 h).imp_right List.mem_singleton.1

/-- Adding a transition to a state keeps those it has. -/
theorem mem_add_of_mem (s : State α) (h : tr' ∈ s.transitions) :
    tr' ∈ (s.add tr).transitions := by
  unfold State.add
  split
  · exact h
  · exact List.mem_append_left _ h

/-- After adding a transition one that does for it is there. -/
theorem exists_mem_add (s : State α) (tr : Transition α) :
    ∃ tr' ∈ (s.add tr).transitions, tr' = tr ∨ (tr == tr') = true := by
  unfold State.add
  split
  next h =>
    obtain ⟨tr', hmem, heq⟩ := List.contains_iff_exists_mem_beq.1 h
    exact ⟨tr', hmem, .inr heq⟩
  next => exact ⟨tr, List.mem_append_right _ (List.mem_singleton.2 rfl), .inl rfl⟩

/-- After a transition has been added to one state, every transition was there or is that one. -/
theorem mem_modify_add (h : tr' ∈ transitionsAt (states.modify r (·.add tr)) q) :
    tr' ∈ transitionsAt states q ∨ (q = r ∧ tr' = tr) := by
  obtain ⟨s, hs, hmem⟩ := mem_transitionsAt.1 h
  by_cases hrq : r = q
  · subst hrq
    rw [List.getElem?_modify_eq] at hs
    obtain ⟨s', hs', rfl⟩ := Option.map_eq_some_iff.1 hs
    rcases mem_add s' hmem with hmem | rfl
    · exact .inl (mem_transitionsAt.2 ⟨s', hs', hmem⟩)
    · exact .inr ⟨rfl, rfl⟩
  · rw [List.getElem?_modify_ne _ _ hrq] at hs
    exact .inl (mem_transitionsAt.2 ⟨s, hs, hmem⟩)

/-- Adding a transition to one state keeps the transitions of all states. -/
theorem mem_modify_add_of_mem (h : tr' ∈ transitionsAt states q) :
    tr' ∈ transitionsAt (states.modify r (·.add tr)) q := by
  obtain ⟨s, hs, hmem⟩ := mem_transitionsAt.1 h
  by_cases hrq : r = q
  · subst hrq
    refine mem_transitionsAt.2 ⟨s.add tr, ?_, mem_add_of_mem s hmem⟩
    rw [List.getElem?_modify_eq, hs]
    rfl
  · refine mem_transitionsAt.2 ⟨s, ?_, hmem⟩
    rw [List.getElem?_modify_ne _ _ hrq]
    exact hs

/-- The transition that was added is there, or an equal one is. -/
theorem exists_mem_modify_add (h : r < states.length) (tr : Transition α) :
    ∃ tr' ∈ transitionsAt (states.modify r (·.add tr)) r, tr' = tr ∨ (tr == tr') = true := by
  obtain ⟨tr', hmem, heq⟩ := exists_mem_add states[r] tr
  refine ⟨tr', mem_transitionsAt.2 ⟨states[r].add tr, ?_, hmem⟩, heq⟩
  rw [List.getElem?_modify_eq, List.getElem?_eq_getElem h]
  rfl

/-- What adding transitions to states makes of the states. -/
structure Adds (states : List (State α)) (links : List (Nat × Transition α))
    (states' : List (State α)) : Prop where
  length : states'.length = states.length
  ids : states'.map (·.id) = states.map (·.id)
  sound : ∀ q, ∀ tr ∈ transitionsAt states' q, tr ∈ transitionsAt states q ∨ (q, tr) ∈ links
  keeps : ∀ q, ∀ tr ∈ transitionsAt states q, tr ∈ transitionsAt states' q
  complete : ∀ q tr, (q, tr) ∈ links → q < states.length →
    ∃ tr' ∈ transitionsAt states' q, tr' = tr ∨ (tr == tr') = true

/-- Adding a transition changes no state's number. -/
theorem map_id_modify (states : List (State α)) (r : Nat) (tr : Transition α) :
    (states.modify r (·.add tr)).map (·.id) = states.map (·.id) := by
  have hadd (s : State α) : (s.add tr).id = s.id := by
    unfold State.add
    split <;> rfl
  apply List.ext_getElem?
  intro q
  rw [List.getElem?_map, List.getElem?_map]
  by_cases hrq : r = q
  · subst hrq
    rw [List.getElem?_modify_eq]
    cases states[r]? with
    | none => rfl
    | some s => exact congrArg some (hadd s)
  · rw [List.getElem?_modify_ne _ _ hrq]

/-- Adding links one after the other adds them all and nothing else. -/
theorem addAll_adds (links : List (Nat × Transition α)) :
    ∀ states : List (State α), Adds states links (addAll states links) := by
  induction links with
  | nil =>
    intro states
    exact ⟨rfl, rfl, fun q tr h => .inl h, fun q tr h => h,
      fun q tr h => absurd h List.not_mem_nil⟩
  | cons link links ih =>
    intro states
    obtain ⟨r, tr⟩ := link
    have h := ih (states.modify r (·.add tr))
    have hlength : (states.modify r (·.add tr)).length = states.length := List.length_modify ..
    refine ⟨h.length.trans hlength, h.ids.trans (map_id_modify states r tr), ?_, ?_, ?_⟩
    · intro q tr' hmem
      rcases h.sound q tr' hmem with hmem | hmem
      · rcases mem_modify_add hmem with hmem | ⟨rfl, rfl⟩
        · exact .inl hmem
        · exact .inr List.mem_cons_self
      · exact .inr (List.mem_cons_of_mem _ hmem)
    · intro q tr' hmem
      exact h.keeps q tr' (mem_modify_add_of_mem hmem)
    · intro q tr' hmem hq
      rcases List.mem_cons.1 hmem with heq | hmem
      · obtain ⟨rfl, rfl⟩ := Prod.mk.inj heq
        obtain ⟨tr'', hmem', hdoes⟩ := exists_mem_modify_add hq tr'
        exact ⟨tr'', h.keeps q tr'' hmem', hdoes⟩
      · exact h.complete q tr' hmem (hlength.symm ▸ hq)

end Adding

/-- The states before any transition is added. -/
def bare (t : Tableau α) : List (State α) :=
  t.classes.first.mapIdx fun id representative => { id, representative }

/-- The states have no transitions to begin with. -/
theorem transitionsAt_bare (t : Tableau α) (q : Nat) : transitionsAt t.bare q = [] := by
  unfold transitionsAt bare
  rw [List.getElem?_mapIdx]
  cases t.classes.first[q]? with
  | none => rfl
  | some r => rfl

theorem length_bare (t : Tableau α) : t.bare.length = t.classes.first.length := List.length_mapIdx

/-- The states are numbered in order. -/
theorem map_id_bare (t : Tableau α) : t.bare.map (·.id) = List.range t.bare.length := by
  apply List.ext_getElem?
  intro q
  rw [length_bare, List.getElem?_map]
  unfold bare
  rw [List.getElem?_mapIdx]
  rcases Nat.lt_or_ge q t.classes.first.length with hlt | hge
  · rw [List.getElem?_eq_getElem hlt, List.getElem?_range hlt]
    rfl
  · rw [List.getElem?_eq_none hge, List.getElem?_eq_none (by simpa using hge)]
    rfl

/-- The automaton of a tableau is its bare states with all its links added. -/
theorem toAutomaton_eq [BEq α] (hwithin : ∀ n ∈ t.nodes, n.Within U) :
    t.toAutomaton = .ok ⟨addAll t.bare t.links, acceptanceSets t.untils⟩ := by
  unfold toAutomaton
  dsimp only
  rw [mapM_eq_ok (t.nodes.zip t.classes.ofNode)
    (g := fun entry => t.linksInto t.classOf entry.2 entry.1)]
  · rfl
  · intro entry hentry
    exact entering_eq t _ _ (hwithin entry.1 (List.of_mem_zip hentry).1)

/-- The automaton of a tableau that has a node has an initial state, and its
    transitions lead to states. -/
theorem toAutomaton_wellFormed [BEq α] {a : Automaton α} (h : t.toAutomaton = .ok a)
    (hnodes : t.nodes ≠ []) : a.WellFormed := by
  have hcovers := classes_covers t
  unfold toAutomaton at h
  dsimp only at h
  generalize hper : List.mapM (m := Except (NotLiteral α)) _ (t.nodes.zip t.classes.ofNode)
    = perNode at h
  cases perNode with
  | error e => cases h
  | ok perNode =>
    obtain rfl : (⟨addAll t.bare perNode.flatten, acceptanceSets t.untils⟩ : Automaton α) = a :=
      Except.ok.inj h
    have hadds := addAll_adds perNode.flatten t.bare
    have hlength := hadds.length.trans (length_bare t)
    constructor
    · show 0 < (addAll t.bare perNode.flatten).length
      rw [hlength]
      exact List.length_pos_iff.2 (hcovers.nonempty (List.length_pos_iff.2 hnodes))
    · intro q tr htr
      show tr.target < (addAll t.bare perNode.flatten).length
      rw [hlength]
      rcases hadds.sound q tr htr with hbare | hlink
      · rw [transitionsAt_bare] at hbare
        exact absurd hbare List.not_mem_nil
      -- A link leads into the class of a node, and classes have states.
      · obtain ⟨into, hinto, hmem⟩ := List.mem_flatten.1 hlink
        obtain ⟨⟨n, k⟩, hnk, hentering⟩ := mem_of_mapM_eq_ok hper hinto
        obtain ⟨i, hi⟩ := List.mem_iff_getElem?.1 hnk
        obtain ⟨r, -, -, hr, -⟩ := hcovers.same i k (List.getElem?_zip_eq_some.1 hi).2
        rw [target_of_entering hentering hmem]
        exact (List.getElem?_eq_some_iff.1 hr).1

/-! ## §4. States and what they ask for -/

end Tableau

/-- The transition is what a completion gives, its guard up to order and repetition
    of literals. -/
structure Transition.Completes [BEq α] (tr : Transition α) (untils : List (Formula α))
    (now later : FormulaSet α) : Prop where
  guard : (tr.guard == Guard.literalsOf now.toList) = true
  accepting : tr.accepting = Tableau.acceptance untils (Tableau.pending untils now later)
  safety : tr.safety = Tableau.isSafety untils now later

/-- The guard of a transition is enabled just when the literals of its label hold. -/
theorem Transition.Completes.enabled [BEq α] [EquivBEq α] {tr : Transition α}
    {untils : List (Formula α)} {now later : FormulaSet α} (h : tr.Completes untils now later)
    (letter : Valuation α) :
    tr.guard.enabled letter = (Guard.literalsOf now.toList).enabled letter :=
  Guard.enabled_congr h.guard

/-- The states of the automaton ask for sets of formulas that are asked for at some
    position, and the transitions of a state are the completions of what it asks
    for. -/
structure Automaton.Unfolds [BEq α] (a : Automaton α) (U untils : List (Formula α))
    (start : FormulaSet α) (asked : Nat → FormulaSet α) : Prop where
  wellFormed : a.WellFormed
  ids : a.states.map (·.id) = List.range a.states.length
  sets : a.acceptanceSets = Tableau.acceptanceSets untils
  reached : ∀ q < a.states.length, Tableau.Asked start (asked q)
  start : asked a.initial = start
  within : ∀ q < a.states.length, (asked q).Within U
  sound : ∀ q, ∀ t ∈ a.transitionsOf q, ∃ now, Completion (asked q) now (asked t.target)
    ∧ t.Completes untils now (asked t.target)
  complete : ∀ q < a.states.length, ∀ now later, Completion (asked q) now later →
    ∃ t ∈ a.transitionsOf q, asked t.target = later ∧ t.Completes untils now later

namespace Tableau

variable {U : List (Formula α)} {t : Tableau α}

/-- What a class asks for. -/
def askedBy (t : Tableau α) (k : Nat) : FormulaSet α :=
  ((t.classes.first[k]?).bind t.later?).getD .empty

/-- Every node of the tableau has a class. -/
theorem exists_class {i : Nat} {x : FormulaSet α} (h : t.later? i = some x) :
    ∃ k, t.classes.ofNode[i]? = some k ∧ t.classOf i = k := by
  obtain ⟨n, hn, -⟩ := Option.map_eq_some_iff.1 h
  have hlt : i < t.classes.ofNode.length := by
    rw [(classes_covers t).length]
    exact (List.getElem?_eq_some_iff.1 hn).1
  refine ⟨t.classes.ofNode[i], List.getElem?_eq_getElem hlt, ?_⟩
  unfold classOf
  rw [List.getElem?_eq_getElem hlt]
  rfl

/-- A class asks for what each of its nodes asks for. -/
theorem askedBy_eq (hU : Formula.Family U) (hwithin : ∀ n ∈ t.nodes, n.Within U) {i k : Nat}
    {x : FormulaSet α} (hk : t.classes.ofNode[i]? = some k) (hx : t.later? i = some x) :
    t.askedBy k = x := by
  obtain ⟨r, y, x', hr, hy, hx', hsame⟩ := (classes_covers t).same i k hk
  obtain rfl : x = x' := Option.some.inj (hx.symm.trans hx')
  have heq : y = x :=
    OrderedSet.eq_of_beq hU.injOn (later?_within hwithin hy) (later?_within hwithin hx) hsame
  unfold askedBy
  rw [hr, Option.bind_some, hy, heq]
  rfl

/-- The first node is in the first class. -/
theorem ofNode_zero (hnodes : t.nodes ≠ []) : t.classes.ofNode[0]? = some 0 := by
  have hcovers := classes_covers t
  have hpos : 0 < t.classes.first.length :=
    List.length_pos_iff.2 (hcovers.nonempty (List.length_pos_iff.2 hnodes))
  have hr : t.classes.first[0]? = some t.classes.first[0] := List.getElem?_eq_getElem hpos
  have hown := hcovers.own 0 _ hr
  rwa [hcovers.zero _ hr] at hown

/-- The first class asks for what the first node asks for. -/
theorem askedBy_zero (hU : Formula.Family U) (hwithin : ∀ n ∈ t.nodes, n.Within U)
    {start : FormulaSet α} (hstart : t.later? 0 = some start) : t.askedBy 0 = start := by
  obtain ⟨n, hn, -⟩ := Option.map_eq_some_iff.1 hstart
  have hzero := ofNode_zero (List.ne_nil_of_mem (List.mem_of_getElem? hn))
  exact askedBy_eq hU hwithin hzero hstart

/-- A class asks for what its first node asks for. -/
theorem later?_first {q : Nat} (hq : q < t.classes.first.length) :
    ∃ r, t.classes.first[q]? = some r ∧ t.later? r = some (t.askedBy q) := by
  have hr : t.classes.first[q]? = some t.classes.first[q] := List.getElem?_eq_getElem hq
  have hown := (classes_covers t).own q _ hr
  obtain ⟨-, -, y, -, -, hy, -⟩ := (classes_covers t).same _ q hown
  refine ⟨_, hr, ?_⟩
  unfold askedBy
  rw [hr, Option.bind_some, hy]
  rfl

/-- The transition for an entry is what the completion that the entry notes gives. -/
theorem completes_transitionOf [BEq α] [EquivBEq α] (t : Tableau α) (k : Nat) {n : Node α}
    (e : Entry α) (hp : n.pending = pending t.untils e.now n.later) :
    (t.transitionOf k n e).Completes t.untils e.now n.later :=
  ⟨BEq.refl _, congrArg (acceptance t.untils) hp, rfl⟩

/-- A transition is a completion of what its source asks for. -/
theorem completion_of_mem_links [BEq α] [EquivBEq α] (hU : Formula.Family U) (h : t.Sound U)
    {q : Nat} {tr : Transition α} (hlink : (q, tr) ∈ t.links) :
    ∃ now, Completion (t.askedBy q) now (t.askedBy tr.target)
      ∧ tr.Completes t.untils now (t.askedBy tr.target) := by
  obtain ⟨i, k, n, hn, hk, e, he, o, ho, rfl, rfl⟩ := mem_links.1 hlink
  have hrecords : t.Records o e.now n.later n.pending :=
    ⟨n, List.mem_of_getElem? hn, rfl, rfl, e, he, rfl, ho⟩
  obtain ⟨asked, hasked, hc, hp⟩ := h.completion _ _ _ _ hrecords
  obtain ⟨k', hk', hclass⟩ := exists_class hasked
  have hq : t.askedBy (t.classOf o) = asked := by
    rw [hclass]
    exact askedBy_eq hU h.within hk' hasked
  have htarget : t.askedBy (t.transitionOf k n e).target = n.later :=
    askedBy_eq hU h.within hk (later?_of_getElem? hn)
  rw [hq, htarget]
  exact ⟨e.now, hc, t.completes_transitionOf k e hp⟩

/-- A completion of what a state asks for is a transition of the state. -/
theorem exists_mem_links [BEq α] [EquivBEq α] (hU : Formula.Family U) (h : t.Sound U)
    (hdone : t.work = []) {q : Nat} (hq : q < t.classes.first.length) {now later : FormulaSet α}
    (hc : Completion (t.askedBy q) now later) :
    ∃ tr, (q, tr) ∈ t.links ∧ t.askedBy tr.target = later ∧ tr.Completes t.untils now later := by
  obtain ⟨r, hfirst, hr⟩ := later?_first hq
  have hown := (classes_covers t).own q r hfirst
  obtain ⟨n, hn, rfl, hp, e, he, rfl, ho⟩ := (h.records_iff hdone hr).2 ⟨hc, rfl⟩
  obtain ⟨i, hi⟩ := List.mem_iff_getElem?.1 hn
  obtain ⟨k, hk, -⟩ := exists_class (later?_of_getElem? hi)
  obtain ⟨k', hk', hclass⟩ := exists_class hr
  obtain rfl : q = k' := Option.some.inj (hown.symm.trans hk')
  exact ⟨t.transitionOf k n e, mem_links.2 ⟨i, k, n, hi, hk, e, he, r, ho, hclass.symm, rfl⟩,
    askedBy_eq hU h.within hk (later?_of_getElem? hi), t.completes_transitionOf k e hp⟩

/-- The states of the automaton that a finished tableau gives ask for what their
    classes ask for. -/
theorem exists_unfolds [BEq α] [EquivBEq α] (hU : Formula.Family U) (h : t.Sound U)
    (hdone : t.work = []) {start : FormulaSet α} (hstart : t.later? 0 = some start)
    (hasked : ∀ o x, t.later? o = some x → Asked start x) :
    ∃ a, t.toAutomaton = .ok a ∧ a.states.length = t.classes.first.length
      ∧ a.Unfolds U t.untils start t.askedBy := by
  have hadds := addAll_adds t.links t.bare
  have hlength : (addAll t.bare t.links).length = t.classes.first.length :=
    hadds.length.trans (length_bare t)
  have hlink (q : Nat) (tr : Transition α) (htr : tr ∈ transitionsAt (addAll t.bare t.links) q) :
      (q, tr) ∈ t.links := by
    rcases hadds.sound q tr htr with hbare | hlink
    · rw [transitionsAt_bare] at hbare
      exact absurd hbare List.not_mem_nil
    · exact hlink
  have hok := toAutomaton_eq h.within
  exact ⟨_, hok, hlength, {
    wellFormed := by
      obtain ⟨n, hn, -⟩ := Option.map_eq_some_iff.1 hstart
      exact toAutomaton_wellFormed hok (List.ne_nil_of_mem (List.mem_of_getElem? hn))
    ids := by
      show (addAll t.bare t.links).map (·.id) = List.range (addAll t.bare t.links).length
      rw [hadds.ids, hadds.length, map_id_bare]
    sets := rfl
    reached := by
      intro q hq
      obtain ⟨r, -, hr⟩ := later?_first (t := t) (q := q) (hlength ▸ hq)
      exact hasked r _ hr
    start := askedBy_zero hU h.within hstart
    within := by
      intro q hq
      obtain ⟨r, -, hr⟩ := later?_first (t := t) (q := q) (hlength ▸ hq)
      exact later?_within h.within hr
    sound := fun q tr htr => completion_of_mem_links hU h (hlink q tr htr)
    complete := by
      intro q hq now later hc
      replace hq : q < t.classes.first.length := hlength ▸ hq
      obtain ⟨tr', hmem, htarget, hcompletes⟩ := exists_mem_links hU h hdone hq hc
      obtain ⟨tr, htr, hdoes⟩ := hadds.complete q tr' hmem (by rw [length_bare]; exact hq)
      refine ⟨tr, htr, ?_⟩
      rcases hdoes with rfl | heq
      · exact ⟨htarget, hcompletes⟩
      · -- the transition was left out, and the one that is there does for it
        obtain ⟨htargets, hacceptings, hsafeties, hguards⟩ := Transition.beq_iff.1 heq
        refine ⟨htargets ▸ htarget, BEq.trans (BEq.symm hguards) hcompletes.guard, ?_, ?_⟩
        · exact hacceptings.symm.trans hcompletes.accepting
        · exact hsafeties.symm.trans hcompletes.safety }⟩

/-- Under the coarser strategy states that ask for the same are the same. -/
theorem askedBy_injective (hmerge : t.merge = .nextAndPending) {q r : Nat}
    (hq : q < t.classes.first.length) (hr : r < t.classes.first.length)
    (h : t.askedBy q = t.askedBy r) : q = r := by
  obtain ⟨_, hqfirst, hqlater⟩ := later?_first hq
  obtain ⟨_, hrfirst, hrlater⟩ := later?_first hr
  refine (classes_covers t).apart hmerge q r _ _ _ _ hqfirst hrfirst hqlater hrlater ?_
  rw [h]
  exact OrderedSet.beq_refl _

end Tableau
end LinearTime
