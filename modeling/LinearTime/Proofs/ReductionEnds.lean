/-
  LinearTime.Proofs.ReductionEnds — reductions end, and a second one does nothing.

  The passes of a reduction have no limit of their own: another one follows each
  that counts a change.  A pass takes what it counts from the content of the graph,
  which is the number of its nodes and marks, so there are at most as many passes
  that count a change, and one more.

      content   c₀ > c₁ > … > cₙ = cₙ₊₁        n + 1 passes,  n ≤ c₀

  What a pass does depends on the graph and not on what was counted before.  So a
  graph that the last pass has left as it was is left as it is by the first pass of
  another reduction.  A graph that is cleared has no nodes and gets no pass.

  Main results:
    * `pass_after` — earlier counts play no part.
    * `Ends.passes_le`, `repeatPass_ends` — how many passes there are.
    * `reduce_ends` — reductions end.
    * `Linked.reduce_rests`, `Rests.reduce_eq` — what is left, and reducing it.
    * `reduce_idempotent` — reductions of what was reduced.
-/

import LinearTime.Proofs.ReductionCounts

namespace LinearTime

/-- What was counted first and what was counted then. -/
def Summary.plus (s t : Summary) : Summary where
  passes := s.passes + t.passes
  removedNodes := s.removedNodes + t.removedNodes
  removedEdges := s.removedEdges + t.removedEdges
  clearedMarks := s.clearedMarks + t.clearedMarks

namespace Reduction

open LinearTime.Graph

variable {α : Type} {r r' q : Reduction α} {s : Summary}

/-! ## §1. Earlier counts -/

/-- The same stage of a reduction before which something was counted. -/
def after (r : Reduction α) (s : Summary) : Reduction α := ⟨r.graph, s.plus r.summary⟩

@[simp] theorem after_graph : (r.after s).graph = r.graph := rfl

/-- The changes counted before add to those that are counted. -/
theorem changes_after : (r.after s).changes = s.removedNodes + s.clearedMarks + r.changes := by
  show s.removedNodes + r.summary.removedNodes + (s.clearedMarks + r.summary.clearedMarks) = _
  unfold changes
  omega

theorem clearNode_after (r : Reduction α) (v : Nat) :
    (r.after s).clearNode v = (r.clearNode v).after s := by
  unfold clearNode
  rw [after_graph]
  cases r.graph.node? v with
  | none => rfl
  | some n => simp only [after, cleared, Summary.plus, Nat.add_assoc]

theorem clearEdge_after (r : Reduction α) (i : Nat) :
    (r.after s).clearEdge i = (r.clearEdge i).after s := by
  unfold clearEdge
  rw [after_graph]
  cases r.graph.edge? i with
  | none => rfl
  | some e => simp only [after, cleared, Summary.plus, Nat.add_assoc]

theorem removeNode_after (r : Reduction α) (v : Nat) :
    (r.after s).removeNode v = (r.removeNode v).after s := by
  unfold removeNode
  rw [after_graph]
  cases r.graph.removeNode? v with
  | none => rfl
  | some p => simp only [after, Summary.plus, Nat.add_assoc]

/-- What was counted before plays no part in steps it plays no part in. -/
theorem foldl_after {β : Type} {step : Reduction α → β → Reduction α}
    (hstep : ∀ r b, step (r.after s) b = (step r b).after s) (bs : List β) (r : Reduction α) :
    bs.foldl step (r.after s) = (bs.foldl step r).after s := by
  induction bs generalizing r with
  | nil => rfl
  | cons b bs ih => rw [List.foldl_cons, hstep, ih, List.foldl_cons]

/-- What was counted before plays no part in carrying out a verdict. -/
theorem carryOut_after (r : Reduction α) (d : Verdict) :
    (r.after s).carryOut d = (r.carryOut d).after s := by
  cases d with
  | remove nodes => exact foldl_after removeNode_after nodes r
  | clear nodes edges =>
    show edges.foldl clearEdge (nodes.foldl clearNode (r.after s)) = _
    rw [foldl_after clearNode_after, foldl_after clearEdge_after]
    rfl

/-- What was counted before plays no part in clearing exits. -/
theorem clearExits_after (r : Reduction α) : (r.after s).clearExits = r.clearExits.after s := by
  unfold clearExits
  rw [after_graph]
  cases r.graph.acceptance.carrier with
  | nodes => rfl
  | edges => exact foldl_after clearEdge_after _ r

/-- What a pass does, and what it counts, does not depend on what was counted
    before. -/
theorem pass_after (r : Reduction α) : (r.after s).pass = r.pass.after s := by
  -- components and verdicts are told by the graph, which is the same
  unfold pass
  simp only [clearExits_after, after_graph, foldl_after carryOut_after]
  rfl

/-- So it is the same whether a reduction goes on or another one begins. -/
theorem Settled.restart (h : Settled r) : Settled ({ graph := r.graph } : Reduction α) := by
  have hafter : r = ({ graph := r.graph } : Reduction α).after r.summary := rfl
  unfold Settled at h ⊢
  rw [hafter, pass_after, changes_after, changes_after] at h
  exact Nat.add_left_cancel h

/-! ## §2. Passes without a limit -/

/-- The passes from one stage on end with another: one more pass follows each that
    counts a change. -/
inductive Ends : Reduction α → Reduction α → Prop
  | stop {r : Reduction α} (h : r.pass.changes = r.changes) : Ends r r.pass
  | again {r r' : Reduction α} (h : r.pass.changes ≠ r.changes) (hrest : Ends r.pass r') :
    Ends r r'

/-- Passes end in one way only. -/
theorem Ends.unique (h : Ends r r') (h' : Ends r q) : r' = q := by
  induction h with
  | stop hsame =>
    cases h' with
    | stop => rfl
    | again hchange => exact absurd hsame hchange
  | again hchange _ ih =>
    cases h' with
    | stop hsame => exact absurd hsame hchange
    | again _ hrest => exact ih hrest

/-- A pass that counts a change takes something from the content. -/
theorem pass_content_lt (h : r.graph.Linked) (hchange : r.pass.changes ≠ r.changes) :
    r.pass.graph.content < r.graph.content := by
  obtain ⟨R, C, D, hsteps⟩ := iterate_pass_steps h 1
  have hle : r.changes ≤ r.pass.changes := hsteps.changes_le
  have hcontent : r.pass.changes + r.pass.graph.content ≤ r.changes + r.graph.content :=
    hsteps.content_le
  omega

/-- There are at most as many passes as there are nodes and marks, and one more. -/
theorem Ends.passes_le (h : Ends r r') (hlinked : r.graph.Linked) :
    r'.summary.passes ≤ r.summary.passes + r.graph.content + 1 := by
  induction h with
  | stop =>
    rw [(pass_balances hlinked).passes]
    omega
  | again hchange _ ih =>
    -- one more pass is counted, and there is less content for those that follow
    have hpasses := (pass_balances hlinked).passes
    have hcontent := pass_content_lt hlinked hchange
    have hrest := ih (pass_linked hlinked)
    omega

/-- A limit above the content is no limit. -/
theorem repeatPass_ends (fuel : Nat) (h : r.graph.Linked) (hfuel : r.graph.content < fuel) :
    Ends r (repeatPass fuel r) := by
  induction fuel generalizing r with
  | zero => omega
  | succ fuel ih =>
    unfold repeatPass
    dsimp only
    split
    next hsame => exact .stop hsame
    next hchange =>
      have hcontent := pass_content_lt h hchange
      exact .again hchange (ih (pass_linked h) (by omega))

end Reduction

namespace Graph

variable {α : Type} {g : Graph α}

/-- Reductions end.  A graph without nodes gets no pass.  For any other the passes,
    which go on without a limit until one counts no change, end with one result, and
    reduction gives that, or clears it.  It counts at most as many passes as the
    graph had nodes and marks on nodes and edges, and one more. -/
theorem reduce_ends (h : g.Reached) :
    (g.isEmpty = true → g.reduce = { graph := g })
      ∧ (g.isEmpty = false → ∃ r : Reduction α,
          (∀ q, Reduction.Ends { graph := g } q ↔ q = r) ∧ g.reduce = r.clearUnlessInitial)
      ∧ g.reduce.summary.passes ≤ g.size + g.markCount + 1 := by
  have hcontent := g.content_eq
  cases hempty : g.isEmpty with
  | true =>
    have hreduce : g.reduce = { graph := g } := if_pos hempty
    refine ⟨fun _ => hreduce, nofun, ?_⟩
    rw [hreduce]
    exact Nat.zero_le _
  | false =>
    have hreduce : g.reduce
        = (Reduction.repeatPass (g.size + g.markCount + 1) { graph := g }).clearUnlessInitial :=
      if_neg (by rw [hempty]; exact Bool.false_ne_true)
    -- Each pass but the last takes away content, of which there is this much.
    have hends := Reduction.repeatPass_ends (r := { graph := g }) (g.size + g.markCount + 1)
      h.linked (by show g.content < _; omega)
    rw [hreduce]
    generalize Reduction.repeatPass (g.size + g.markCount + 1) { graph := g } = r at hends
    have hpasses : r.summary.passes ≤ 0 + g.content + 1 := hends.passes_le h.linked
    have hlast : r.clearUnlessInitial.summary.passes = r.summary.passes := by
      unfold Reduction.clearUnlessInitial
      split <;> rfl
    refine ⟨nofun, fun _ => ⟨r, fun q => ⟨fun hq => hq.unique hends, ?_⟩, rfl⟩, by omega⟩
    rintro rfl
    exact hends

/-- Three nodes in a row, without marks. -/
def row : Graph String :=
  ofChanges {} [.addNode {}, .addNode {}, .addNode {}, .addEdge 0 1 {} "-" {},
    .addEdge 1 2 {} "-" {}]

/-- Every pass but the last removes one of them, so there cannot be more passes. -/
theorem reduce_ends_row :
    row.Reached ∧ row.isEmpty = false ∧ row.reduce.summary.passes = row.size + row.markCount + 1
      ∧ ∃ r, Reduction.Ends { graph := row } r ∧ row.reduce = r.clearUnlessInitial := by
  have hreached : row.Reached := reached_ofChanges _ _
  have hempty : row.isEmpty = false := by decide
  obtain ⟨-, hends, hpasses⟩ := reduce_ends hreached
  obtain ⟨r, hr, hreduce⟩ := hends hempty
  have hle : row.size + row.markCount + 1 ≤ row.reduce.summary.passes := by decide +kernel
  exact ⟨hreached, hempty, Nat.le_antisymm hpasses hle, r, (hr r).2 rfl, hreduce⟩

/-! ## §3. Reducing again -/

end Graph

namespace Reduction

variable {α : Type} {r : Reduction α}

/-- A pass that counts no change counts itself and does nothing else. -/
theorem Settled.pass_eq (h : r.graph.Linked) (hsettled : Settled r) :
    r.pass = ⟨r.graph, { r.summary with passes := r.summary.passes + 1 }⟩ := by
  obtain ⟨R, C, D, hsteps⟩ := iterate_pass_steps h 1
  have hgraph : r.pass.graph = r.graph := (hsteps.graph_eq_iff h).2 hsettled
  obtain ⟨-, hpasses, hnodes, hedges⟩ := pass_balances h
  have hchanges : r.pass.summary.removedNodes + r.pass.summary.clearedMarks
      = r.summary.removedNodes + r.summary.clearedMarks := hsettled
  -- no node and no edge went, so no counter of these moved, and marks take the rest
  rw [hgraph] at hnodes hedges
  generalize r.pass = q at hgraph hpasses hnodes hedges hchanges
  obtain ⟨g, p, n, e, m⟩ := q
  obtain rfl : g = r.graph := hgraph
  obtain rfl : p = r.summary.passes + 1 := hpasses
  obtain rfl : n = r.summary.removedNodes := Nat.add_right_cancel hnodes
  obtain rfl : e = r.summary.removedEdges := Nat.add_right_cancel hedges
  obtain rfl : m = r.summary.clearedMarks := Nat.add_left_cancel hchanges
  rfl

end Reduction

namespace Graph

variable {α : Type} {g : Graph α}

/-- There is nothing to reduce: no node, or an initial one and nothing that a pass
    would change. -/
def Rests (g : Graph α) : Prop :=
  g.isEmpty = true ∨ g.hasNode 0 = true ∧ Reduction.Settled { graph := g }

/-- What is left by a reduction is such a graph. -/
theorem Linked.reduce_rests (h : g.Linked) : g.reduce.graph.Rests := by
  cases hempty : g.isEmpty with
  | true =>
    rw [reduce_of_isEmpty hempty]
    exact .inl hempty
  | false =>
    obtain ⟨n, hsettled, hreduce⟩ := h.reduce_eq_passes hempty
    have hlinked := Reduction.iterate_pass_linked (r := { graph := g }) h n
    -- the last pass has left the graph as it was before
    rw [Function.iterate_succ_apply'] at hreduce
    generalize Reduction.pass^[n] { graph := g } = r at hsettled hreduce hlinked
    rw [hreduce]
    rcases Reduction.clearUnlessInitial_cases r.pass with ⟨hkept, hnone | hinitial⟩ | ⟨hcleared, -⟩
    · rw [hkept]
      exact .inl hnone
    · rw [hkept]
      refine .inr ⟨hinitial, ?_⟩
      rw [hsettled.pass_eq hlinked]
      exact hsettled.restart
    · rw [hcleared]
      exact .inl rfl

/-- Such a graph is left as it is, by one pass if it has nodes. -/
theorem Rests.reduce_eq (hrests : g.Rests) (h : g.Linked) :
    g.reduce = ⟨g, { passes := if g.isEmpty then 0 else 1 }⟩ := by
  cases hempty : g.isEmpty with
  | true => exact reduce_of_isEmpty hempty
  | false =>
    rcases hrests with hnone | ⟨hinitial, hsettled⟩
    · rw [hempty] at hnone
      cases hnone
    · have hpass : Reduction.repeatPass (g.size + g.markCount + 1) { graph := g }
          = ⟨g, { passes := 1 }⟩ := by
        rw [← hsettled.pass_eq h]
        exact if_pos hsettled
      rw [reduce_of_nonempty hempty, hpass, Reduction.clearUnlessInitial_of_hasNode hinitial]
      rfl

/-- Reducing any graph again leaves all of it as it is, nodes and edges with their
    links, attributes and holes.  Nothing is counted but a pass, and not even that if
    no node is left. -/
theorem reduce_idempotent (h : g.Reached) :
    g.reduce.graph.reduce.graph = g.reduce.graph
      ∧ g.reduce.graph.reduce.summary.removedNodes = 0
      ∧ g.reduce.graph.reduce.summary.removedEdges = 0
      ∧ g.reduce.graph.reduce.summary.clearedMarks = 0
      ∧ g.reduce.graph.reduce.summary.passes = if g.reduce.graph.isEmpty then 0 else 1 := by
  obtain ⟨R, C, D, hshrunk⟩ := h.linked.reduce_shrunk
  rw [h.linked.reduce_rests.reduce_eq hshrunk.linked]
  exact ⟨rfl, rfl, rfl, rfl, rfl⟩

/-- A loop, and an initial node that leads there and to a node without edges; there
    was an edge back. -/
def loopAfterStart : Graph String :=
  ofChanges {} [.addNode { marks := .full 1 }, .addNode {}, .addNode { marks := .full 1 },
    .addEdge 0 1 {} "-" {}, .addEdge 0 2 {} "-" {}, .addEdge 1 0 {} "-" {},
    .addEdge 2 2 {} "-" {}, .removeEdge 2]

/-- The first reduction takes a node, an edge and a mark, the second takes nothing. -/
theorem reduce_idempotent_loopAfterStart :
    loopAfterStart.Reached
      ∧ loopAfterStart.reduce.summary = ⟨2, 1, 1, 1⟩
      ∧ loopAfterStart.reduce.graph.nodeIndices = [0, 2]
      ∧ loopAfterStart.reduce.graph.reduce.graph = loopAfterStart.reduce.graph
      ∧ loopAfterStart.reduce.graph.reduce.summary.removedNodes = 0
      ∧ loopAfterStart.reduce.graph.reduce.summary.removedEdges = 0
      ∧ loopAfterStart.reduce.graph.reduce.summary.clearedMarks = 0 := by
  have hreached : loopAfterStart.Reached := reached_ofChanges _ _
  obtain ⟨hgraph, hnodes, hedges, hmarks, -⟩ := reduce_idempotent hreached
  exact ⟨hreached, rfl, rfl, hgraph, hnodes, hedges, hmarks⟩

end Graph
end LinearTime
