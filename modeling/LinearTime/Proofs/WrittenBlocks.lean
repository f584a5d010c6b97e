/-
  LinearTime.Proofs.WrittenBlocks — block lists that read as they were written.

  A graph is written as its number of nodes, its header and a node block for each
  node; a node block as the number of its edges, its attributes and four lines
  for each edge.  Both sides of the format are about the same lists of blocks:

      Readable a bs   →   reading the lines of `bs` gives the graph of `bs`
      reading gives g →   `g` is the graph of some `bs` with `Readable a bs`

  In a readable list blocks are numbered by their places, no edge leads out of it,
  all counts are below the bound of numbers, and guards, actions and attributes
  are such as can be written.

  Main results:
    * `readWithin_linesOf` — reading the lines of a readable list.
    * `exists_readable_of_read` — whatever is read is the graph of a readable list.
-/

import LinearTime.Proofs.GraphBlocks
import LinearTime.Proofs.WrittenAttributes
import LinearTime.Proofs.WrittenGuards

namespace LinearTime
namespace Graph

open Text LineReader

variable {memory : Memory} {a : Acceptance} {bs : List NodeBlock} {count first source : Nat}

/-! ## §1. Lines of blocks -/

/-- The lines of an edge. -/
def EdgeBlock.lines (c : Condition) (e : EdgeBlock) : List String :=
  [e.target.repr, e.guard.text, e.action, e.attributes.line c]

/-- The lines of a node and its edges. -/
def NodeBlock.lines (c : Condition) (b : NodeBlock) : List String :=
  b.edges.length.repr :: b.attributes.line c :: b.edges.flatMap (EdgeBlock.lines c)

/-- All lines of a graph. -/
def linesOf (a : Acceptance) (bs : List NodeBlock) : List String :=
  bs.length.repr :: a.text :: bs.flatMap (NodeBlock.lines a.condition)

/-- The edge reads as it is written. -/
structure EdgeBlock.Writable (a : Acceptance) (e : EdgeBlock) : Prop where
  guard : e.guard.Writable
  literals : e.guard.literals ≠ []
  action : Plain e.action.toList
  attributes : e.attributes.Writable a .edges

/-- The node and its edges read as they are written. -/
structure NodeBlock.Writable (a : Acceptance) (b : NodeBlock) : Prop where
  attributes : b.attributes.Writable a .nodes
  edges : ∀ e ∈ b.edges, e.Writable a
  length : b.edges.length < numberBound

/-- There is memory for the marks of the node and its edges. -/
structure NodeBlock.Held (memory : Memory) (b : NodeBlock) : Prop where
  attributes : b.attributes.Held memory
  edges : ∀ e ∈ b.edges, e.attributes.Held memory

/-- All blocks read as they are written. -/
structure Readable (a : Acceptance) (bs : List NodeBlock) : Prop where
  sets : 1 ≤ a.sets
  bound : a.sets < numberBound
  length : bs.length < numberBound
  placed : Placed 0 bs.length bs
  blocks : ∀ b ∈ bs, b.Writable a

/-- The lines of an edge that can be written are plain. -/
theorem EdgeBlock.Writable.plain {e : EdgeBlock} (h : e.Writable a) (hbound : a.sets < numberBound) :
    ∀ line ∈ e.lines a.condition, Plain line.toList := by
  intro line hline
  simp only [EdgeBlock.lines, List.mem_cons, List.not_mem_nil, or_false] at hline
  rcases hline with rfl | rfl | rfl | rfl
  · exact plain_repr e.target
  · exact Guard.plain_text h.guard
  · exact h.action
  · exact Attributes.plain_line h.attributes hbound

/-- All lines of a graph that can be read are plain. -/
theorem Readable.plain (h : Readable a bs) : ∀ line ∈ linesOf a bs, Plain line.toList := by
  intro line hline
  rcases List.mem_cons.1 hline with rfl | hline
  · exact plain_repr bs.length
  rcases List.mem_cons.1 hline with rfl | hline
  · rw [Acceptance.text_eq_lineOf]
    exact Entry.plain_lineOf a.writable_entries
  obtain ⟨b, hb, hline⟩ := List.mem_flatMap.1 hline
  have hblock := h.blocks b hb
  rcases List.mem_cons.1 hline with rfl | hline
  · exact plain_repr b.edges.length
  rcases List.mem_cons.1 hline with rfl | hline
  · exact Attributes.plain_line hblock.attributes h.bound
  obtain ⟨e, he, hline⟩ := List.mem_flatMap.1 hline
  exact (hblock.edges e he).plain h.bound line hline

/-! ## §2. Reading blocks that were written -/

/-- Written attributes read back, if there is memory for their marks. -/
theorem reads_attributes {on : Carrier} {x : Attributes} (h : x.Writable a on)
    (hbound : a.sets < numberBound) (hheld : x.Held memory) :
    Reads (readAttributes memory a on) [x.line a.condition] x := by
  apply Reads.next_bind (Attributes.plain_line h hbound)
  intro line
  have hread := Attributes.read_line h hbound hheld
  dsimp only
  rw [hread]
  exact Reads.pure x

/-- A written edge reads back, behind its own source. -/
theorem reads_edge {e : EdgeBlock} (h : e.Writable a) (hbound : a.sets < numberBound)
    (hheld : e.attributes.Held memory) (hsource : e.source = source) (htarget : e.target < count)
    (hcount : count < numberBound) :
    Reads (readEdge memory a count source) (e.lines a.condition) e := by
  subst hsource
  -- target, guard, action and attributes, a line each
  apply Reads.number_bind (by omega)
  intro line
  dsimp only
  rw [if_neg (by omega)]
  apply Reads.next_bind (Guard.plain_text h.guard)
  intro line
  have hguard : (Guard.read (String.ofList e.guard.text.toList)).mapError LineFault.guard
      = .ok e.guard := by
    rw [String.ofList_toList, Guard.read_text h.guard.legible, Guard.spelledOut_eq_self h.literals]
    rfl
  apply Reads.onLine_bind hguard
  apply Reads.next_bind h.action
  intro line
  apply (reads_attributes h.attributes hbound hheld).bind_last
  rw [String.ofList_toList]
  exact Reads.pure e

/-- So do all edges of a node. -/
theorem reads_edges {es : List EdgeBlock} (h : ∀ e ∈ es, e.Writable a)
    (hbound : a.sets < numberBound) (hheld : ∀ e ∈ es, e.attributes.Held memory)
    (hplaced : ∀ e ∈ es, e.source = source ∧ e.target < count)
    (hcount : count < numberBound) :
    Reads (readEdges memory a count source es.length) (es.flatMap (EdgeBlock.lines a.condition)) es := by
  induction es with
  | nil => exact Reads.pure []
  | cons e es ih =>
    obtain ⟨hsource, htarget⟩ := hplaced e List.mem_cons_self
    have hfirst := reads_edge (h e List.mem_cons_self) hbound (hheld e List.mem_cons_self) hsource
      htarget hcount
    have hrest := ih (fun e he => h e (List.mem_cons_of_mem _ he))
      (fun e he => hheld e (List.mem_cons_of_mem _ he))
      fun e he => hplaced e (List.mem_cons_of_mem _ he)
    -- the first edge, then the others
    apply hfirst.bind
    exact hrest.bind_last (Reads.pure (e :: es))

/-- So do the nodes, each with its edges. -/
theorem reads_nodes (h : ∀ b ∈ bs, b.Writable a) (hbound : a.sets < numberBound)
    (hheld : ∀ b ∈ bs, b.Held memory) (hplaced : Placed first count bs)
    (hcount : count < numberBound) :
    Reads (readNodes memory a count bs.length first) (bs.flatMap (NodeBlock.lines a.condition))
      (bs.map (·.attributes), bs.flatMap (·.edges)) := by
  induction bs generalizing first with
  | nil => exact Reads.pure ([], [])
  | cons b bs ih =>
    obtain ⟨hb, hbs⟩ := placed_cons.1 hplaced
    have hblock := h b List.mem_cons_self
    have hroom := hheld b List.mem_cons_self
    have hrest := ih (fun b hb => h b (List.mem_cons_of_mem _ hb))
      (fun b hb => hheld b (List.mem_cons_of_mem _ hb)) hbs
    -- the number of edges, the attributes, the edges, then the other nodes
    apply Reads.number_bind hblock.length
    intro line
    apply (reads_attributes hblock.attributes hbound hroom.attributes).bind
    apply (reads_edges hblock.edges hbound hroom.edges hb hcount).bind
    apply hrest.bind_last
    exact Reads.pure ((b :: bs).map (·.attributes), (b :: bs).flatMap (·.edges))

/-- Reading a graph that was written as blocks. -/
theorem Readable.reads (h : Readable a bs) (hheld : ∀ b ∈ bs, b.Held memory) :
    Reads (readLines memory) (linesOf a bs) (ofNodeBlocks a bs) := by
  apply Reads.number_bind h.length
  intro line
  apply (reads_header h.sets h.bound).bind
  apply (reads_nodes h.blocks h.bound hheld h.placed h.length).bind_last
  exact Reads.pure (ofNodeBlocks a bs)

/-- Reading the lines of a readable list gives its graph, if there is memory for its marks. -/
theorem readWithin_linesOf (h : Readable a bs) (hheld : ∀ b ∈ bs, b.Held memory) :
    readWithin memory (Utf8.encode (String.join ((linesOf a bs).map (· ++ "\n"))).toList)
      = .ok (ofNodeBlocks a bs) := by
  have hdivide := Lines.divide_join fun line hline => (h.plain line hline).feed
  have hreads := h.reads hheld [] 0
  rw [List.append_nil] at hreads
  unfold readWithin Lines.ofBytes
  rw [hdivide]
  show (readLines memory ⟨(linesOf a bs).map Lines.bytesOf, 0⟩).map (·.1) = _
  rw [hreads]
  rfl

/-- The text of a graph that can be read gives the graph. -/
theorem readText_linesOf (h : Readable a bs) :
    readText (String.join ((linesOf a bs).map (· ++ "\n"))) = .ok (ofNodeBlocks a bs) :=
  readWithin_linesOf h fun b _ =>
    ⟨b.attributes.held_unlimited, fun e _ => e.attributes.held_unlimited⟩

/-! ## §3. What blocks are read -/

/-- Attributes that were read can be written, and there is memory for them. -/
theorem yields_attributes (memory : Memory) (a : Acceptance) (on : Carrier) :
    Yields (readAttributes memory a on) fun x => x.Writable a on ∧ x.Held memory := by
  apply Yields.next.bind
  intro p _ lines after x hdivided hx
  obtain ⟨hread, hafter⟩ := Yields.onLine _ _ lines after x hdivided hx
  exact ⟨Attributes.admitted_of_read hread, hafter⟩

/-- An edge that was read can be written and leads to a node. -/
theorem yields_edge (memory : Memory) (a : Acceptance) (count source : Nat) :
    Yields (readEdge memory a count source) fun e =>
      (e.source = source ∧ e.target < count) ∧ e.Writable a ∧ e.attributes.Held memory := by
  apply (Yields.number _).bind
  rintro ⟨line, target⟩ _
  dsimp only
  split
  next => exact Yields.throw _
  next htarget =>
    apply Yields.next.bind
    rintro ⟨line, content⟩ hcontent
    apply (Yields.onLine _ _).bind
    intro guard hguard
    -- a line has no line feed, so neither has the guard
    have hplain : Plain (String.ofList content).toList := by rwa [String.toList_ofList]
    obtain ⟨hliterals, hwritable⟩ := Guard.writable_of_read hplain (mapError_eq_ok hguard)
    apply Yields.next.bind
    rintro ⟨line, action⟩ haction
    apply (yields_attributes memory a .edges).bind
    rintro x ⟨hx, hheld⟩
    apply Yields.pure
    refine ⟨⟨rfl, Nat.lt_of_not_le htarget⟩, ⟨hwritable, hliterals, ?_, hx⟩, hheld⟩
    rwa [String.toList_ofList]

/-- So it is with all edges of a node. -/
theorem yields_edges (memory : Memory) (a : Acceptance) (count source n : Nat) :
    Yields (readEdges memory a count source n) fun es => es.length = n ∧ ∀ e ∈ es,
      (e.source = source ∧ e.target < count) ∧ e.Writable a ∧ e.attributes.Held memory := by
  induction n with
  | zero => exact .pure ⟨rfl, fun e he => absurd he List.not_mem_nil⟩
  | succ n ih =>
    apply (yields_edge memory a count source).bind
    intro e he
    apply ih.bind
    rintro es ⟨hlength, hes⟩
    apply Yields.pure
    refine ⟨congrArg (· + 1) hlength, fun e' he' => ?_⟩
    rcases List.mem_cons.1 he' with rfl | he'
    · exact he
    · exact hes e' he'

/-- The nodes that were read, with their edges, are blocks that can be written. -/
theorem yields_nodes (memory : Memory) (a : Acceptance) (count n first : Nat) :
    Yields (readNodes memory a count n first) fun p => ∃ bs : List NodeBlock,
      p = (bs.map (·.attributes), bs.flatMap (·.edges)) ∧ bs.length = n
        ∧ Placed first count bs ∧ ∀ b ∈ bs, b.Writable a ∧ b.Held memory := by
  induction n generalizing first with
  | zero => exact .pure ⟨[], rfl, rfl, placed_nil first count, fun b hb => absurd hb List.not_mem_nil⟩
  | succ n ih =>
    apply (Yields.number _).bind
    rintro ⟨line, edgeCount⟩ hcount
    apply (yields_attributes memory a .nodes).bind
    rintro x ⟨hx, hheld⟩
    apply (yields_edges memory a count first edgeCount).bind
    rintro es ⟨hlength, hes⟩
    apply (ih (first + 1)).bind
    rintro p ⟨bs, rfl, hbs, hplaced, hblocks⟩
    -- this block is in front of those read after it
    apply Yields.pure
    refine ⟨⟨x, es⟩ :: bs, rfl, congrArg (· + 1) hbs,
      placed_cons.2 ⟨fun e he => (hes e he).1, hplaced⟩, fun b hb => ?_⟩
    rcases List.mem_cons.1 hb with rfl | hb
    · exact ⟨⟨hx, fun e he => (hes e he).2.1, hlength ▸ hcount⟩, hheld,
        fun e he => (hes e he).2.2⟩
    · exact hblocks b hb

/-- A graph that was read is the graph of its blocks, and these can be read. -/
theorem yields_graph (memory : Memory) : Yields (readLines memory) fun g => ∃ a bs, Readable a bs
    ∧ (∀ b ∈ bs, b.Held memory) ∧ g = ofNodeBlocks a bs := by
  apply (Yields.number _).bind
  rintro ⟨line, count⟩ hcount
  apply yields_header.bind
  rintro a ⟨hsets, hbound⟩
  apply (yields_nodes memory a count count 0).bind
  rintro p ⟨bs, rfl, rfl, hplaced, hblocks⟩
  exact .pure ⟨a, bs, ⟨hsets, hbound, hcount, hplaced, fun b hb => (hblocks b hb).1⟩,
    fun b hb => (hblocks b hb).2, rfl⟩

/-- Whatever is read is the graph of a readable list, with memory for its marks. -/
theorem exists_readable_of_read {bytes : List UInt8} {g : Graph String}
    (h : readWithin memory bytes = .ok g) :
    ∃ a bs, Readable a bs ∧ (∀ b ∈ bs, b.Held memory) ∧ g = ofNodeBlocks a bs := by
  obtain ⟨⟨g', after⟩, hread, rfl⟩ := map_eq_ok h
  exact (yields_graph memory _ after g' (Lines.divided_divide bytes) hread).1

end Graph
end LinearTime
