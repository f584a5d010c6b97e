/-
  LinearTime.Proofs.TruncatedInputs — reading inputs that are cut off.

  A reader takes lines one after the other.  Where only the first lines of an input
  are there, it does what it would do with all of them, until it asks for a line
  that is not there.  So its two outcomes

      from the first lines      from all lines
      end of input              anything
      a fault                   the same fault
      a value                   the same value

  agree in one of these three ways.  This goes from one line to sequences of
  readers, and so to graphs; counts in the input do not matter for it.  Faults are
  followed along: a fault that names a line names one that is there.

  Main results:
    * `Lines.divide_front` — the first lines of an input.
    * `Gradual.next`, `Gradual.bind` — one line, and sequences of readers.
    * `read_of_front` — reading the first lines of an input.
-/

import LinearTime.Graph.Reader
import Mathlib

namespace LinearTime

/-- The fault is found in the first `last` lines. That there are too few lines is none. -/
def ReadFault.Among (last : Nat) : ReadFault → Prop
  | .malformed line _ => 1 ≤ line ∧ line ≤ last
  | .header _ | .undecodable => True
  | .endOfInput _ => False

namespace Lines

variable {last n : Nat} {bytes : List UInt8}

/-! ## §1. First lines -/

/-- The first `n` lines of an input, with their line feeds. -/
def front : (n : Nat) → (bytes : List UInt8) → List UInt8
  | 0, _ => []
  | _ + 1, [] => []
  | n + 1, b :: bytes => if b == 0x0A then b :: front n bytes else b :: front (n + 1) bytes

/-- The first lines of an input are the lines of its front. -/
theorem divide_front (n : Nat) (bytes : List UInt8) :
    divide (front n bytes) = (divide bytes).take n := by
  induction bytes generalizing n with
  | nil => cases n <;> rfl
  | cons b bytes ih =>
    cases n with
    | zero => rfl
    | succ n =>
      have hcons (bytes : List UInt8) : divide (b :: bytes) = addToLines b (divide bytes) := rfl
      rw [front, hcons]
      split
      -- A line feed ends the first line, so one line less is to come.
      next hb =>
        rw [hcons, ih]
        unfold addToLines
        rw [if_pos hb, if_pos hb, List.take_succ_cons]
      next hb =>
        rw [hcons, ih]
        unfold addToLines
        rw [if_neg hb, if_neg hb]
        cases divide bytes with
        | nil => simp
        | cons first lines => rfl

/-- `short` goes on where `long` does, but only up to line `last`. -/
structure Cut (last : Nat) (short long : Lines) : Prop where
  count : short.count = long.count
  rest : short.rest <+: long.rest
  last : short.count + short.rest.length = last

/-- The lines of the front go on where those of the input do, up to the last of them. -/
theorem cut_front (hn : n ≤ (divide bytes).length) :
    Cut n (ofBytes (front n bytes)) (ofBytes bytes) where
  count := rfl
  rest := by
    show divide (front n bytes) <+: divide bytes
    rw [divide_front]
    exact List.take_prefix n _
  last := by
    show 0 + (divide (front n bytes)).length = n
    rw [divide_front, List.length_take]
    omega

/-- An input is cut off at its end. -/
theorem cut_self (bytes : List UInt8) :
    Cut (divide bytes).length (ofBytes bytes) (ofBytes bytes) :=
  ⟨rfl, List.prefix_rfl, Nat.zero_add _⟩

end Lines

namespace LineReader

open Lines

variable {β γ : Type} {last line : Nat} {r : LineReader β} {P : β → Prop} {Q : γ → Prop}
  {f : β → LineReader γ}

/-! ## §2. Outcomes that agree -/

/-- The outcome from lines up to `last`, and the one from all lines. -/
inductive Agrees (last : Nat) (P : β → Prop) :
    Except ReadFault (β × Lines) → Except ReadFault (β × Lines) → Prop where
  | ended (outcome : Except ReadFault (β × Lines)) :
      Agrees last P (.error (.endOfInput last)) outcome
  | failed {fault : ReadFault} (h : fault.Among last) : Agrees last P (.error fault) (.error fault)
  | went {x : β} {short long : Lines} (hx : P x) (h : Cut last short long) :
      Agrees last P (.ok (x, short)) (.ok (x, long))

/-- The reader treats lines up to `last` as it treats them with more lines behind them. What
    it gives back has the property `P`. -/
def Gradual (last : Nat) (r : LineReader β) (P : β → Prop) : Prop :=
  ∀ short long, Cut last short long → Agrees last P (r short) (r long)

/-- Something that is on one of the first `last` lines. -/
def OnLine (last : Nat) (p : Nat × γ) : Prop := 1 ≤ p.1 ∧ p.1 ≤ last

theorem Gradual.pure {x : β} (h : P x) : Gradual last (Pure.pure x) P :=
  fun _ _ hcut => .went h hcut

theorem Gradual.throw {fault : ReadFault} (h : fault.Among last) :
    Gradual last (MonadExcept.throw fault : LineReader β) P :=
  fun _ _ _ => .failed h

/-- Gradual readers one after the other are gradual. -/
theorem Gradual.bind (hr : Gradual last r P) (hf : ∀ x, P x → Gradual last (f x) Q) :
    Gradual last (r >>= f) Q := by
  intro short long hcut
  have hfirst := hr short long hcut
  show Agrees last Q (r short >>= fun p => f p.1 p.2) (r long >>= fun p => f p.1 p.2)
  generalize r short = outcome at hfirst
  generalize r long = outcome' at hfirst
  cases hfirst with
  | ended => exact .ended _
  | failed hfault => exact .failed hfault
  | @went x short long hx hcut => exact hf x hx short long hcut

/-- Blank lines are passed over alike, and both come to the same line next, unless the
    lines end before. -/
theorem nextFrom_agrees {short long : List (List UInt8)} {count : Nat} (h : short <+: long)
    (hlast : count + short.length = last) :
    Agrees last (OnLine last) (nextFrom short count) (nextFrom long count) := by
  induction short generalizing long count with
  | nil =>
    obtain rfl : count = last := hlast
    exact .ended _
  | cons line short ih =>
    obtain ⟨behind, rfl⟩ := h
    rw [List.length_cons] at hlast
    have hrest : short <+: short ++ behind := List.prefix_append short behind
    rw [List.cons_append, nextFrom, nextFrom]
    split
    next => exact .failed trivial
    next =>
      split
      next => exact ih hrest (by omega)
      next => exact .went (by unfold OnLine; omega) ⟨rfl, hrest, by dsimp only; omega⟩

/-- Taking the next line is gradual, and the line is one of the first. -/
theorem Gradual.next : Gradual last next (OnLine last) := by
  rintro ⟨short, count⟩ ⟨long, _⟩ ⟨rfl, hrest, hlast⟩
  exact nextFrom_agrees hrest hlast

/-- A fault on one of the first lines is found on less input too. -/
theorem Gradual.onLine (h : 1 ≤ line ∧ line ≤ last) (e : Except LineFault β) :
    Gradual last (onLine line e) fun _ => True := by
  cases e with
  | ok x => exact .pure trivial
  | error fault => exact .throw h

theorem Gradual.number (role : NumberRole) : Gradual last (number role) (OnLine last) := by
  apply Gradual.next.bind
  intro p hp
  dsimp only
  split
  next => exact .pure hp
  next => exact .throw hp

end LineReader

/-! ## §3. Graphs -/

namespace Graph

open LineReader

variable {last : Nat}

/-- The header is read gradually. -/
theorem gradual_header : Gradual last readHeader fun _ => True := by
  apply Gradual.next.bind
  intro p hp
  apply (Gradual.onLine hp _).bind
  intro entries _
  apply (Gradual.onLine hp _).bind
  intro values _
  split
  next => exact .pure trivial
  next => exact .throw trivial

/-- Attributes are read gradually. -/
theorem gradual_attributes (memory : Memory) (a : Acceptance) (on : Carrier) :
    Gradual last (readAttributes memory a on) fun _ => True := by
  apply Gradual.next.bind
  intro p hp
  exact .onLine hp _

/-- Edges are read gradually. -/
theorem gradual_edge (memory : Memory) (a : Acceptance) (count source : Nat) :
    Gradual last (readEdge memory a count source) fun _ => True := by
  apply (Gradual.number .target).bind
  intro p hp
  dsimp only
  split
  next => exact .throw hp
  next =>
    apply Gradual.next.bind
    intro q hq
    apply (Gradual.onLine hq _).bind
    intro guard _
    apply Gradual.next.bind
    intro action _
    apply (gradual_attributes memory a .edges).bind
    intro attributes _
    exact .pure trivial

/-- However many edges there should be. -/
theorem gradual_edges (memory : Memory) (a : Acceptance) (count source n : Nat) :
    Gradual last (readEdges memory a count source n) fun _ => True := by
  induction n with
  | zero => exact .pure trivial
  | succ n ih =>
    apply (gradual_edge memory a count source).bind
    intro edge _
    apply ih.bind
    intro edges _
    exact .pure trivial

/-- However many nodes there should be. -/
theorem gradual_nodes (memory : Memory) (a : Acceptance) (count n first : Nat) :
    Gradual last (readNodes memory a count n first) fun _ => True := by
  induction n generalizing first with
  | zero => exact .pure trivial
  | succ n ih =>
    apply (Gradual.number .edgeCount).bind
    intro p _
    apply (gradual_attributes memory a .nodes).bind
    intro attributes _
    apply (gradual_edges memory a count first p.2).bind
    intro edges _
    apply (ih (first + 1)).bind
    intro more _
    exact .pure trivial

/-- Whole graphs are read gradually. -/
theorem gradual_lines (memory : Memory) : Gradual last (readLines memory) fun _ => True := by
  apply (Gradual.number .nodeCount).bind
  intro p _
  apply gradual_header.bind
  intro a _
  apply (gradual_nodes memory a p.2 p.2 0).bind
  intro blocks _
  exact .pure trivial

/-- The first `n` lines of an input are read as the whole input is, as the same graph or
    with the same fault, unless reading needs more of them: then the input ends after
    line `n`.  A line at fault is one of the lines of the input. -/
theorem read_of_front (bytes : List UInt8) (n : Nat) (hn : n ≤ (Lines.divide bytes).length) :
    (read (Lines.front n bytes) = read bytes
        ∨ read (Lines.front n bytes) = .error (.endOfInput n))
      ∧ ∀ line fault, read bytes = .error (.malformed line fault) →
          1 ≤ line ∧ line ≤ (Lines.divide bytes).length := by
  constructor
  -- Whole and cut input take the reader the same way, up to the end of the cut one.
  · have hagrees := gradual_lines .unlimited _ _ (Lines.cut_front hn)
    unfold read readWithin StateT.run
    generalize readLines _ (Lines.ofBytes (Lines.front n bytes)) = outcome at hagrees
    generalize readLines _ (Lines.ofBytes bytes) = outcome' at hagrees
    cases hagrees with
    | ended => exact .inr rfl
    | failed => exact .inl rfl
    | went => exact .inl rfl
  -- An input is the front of itself by all its lines.
  · intro line fault hread
    have hagrees := gradual_lines .unlimited _ _ (Lines.cut_self bytes)
    unfold read readWithin StateT.run at hread
    generalize readLines _ (Lines.ofBytes bytes) = outcome at hagrees hread
    cases outcome with
    | ok p => cases hread
    | error fault' =>
      obtain rfl := Except.error.inj hread
      cases hagrees with
      | failed h => exact h

/-- Two nodes are announced, and the second one has a bad line behind a comment and a
    blank line. -/
def badSecondNode : List UInt8 :=
  Text.Utf8.encode "2\ntype=ba,ac=nodes\n0\n-\n# second\n\nx\n-".toList

/-- Five lines are too few, all eight end with the fault of line seven. -/
theorem read_of_front_badSecondNode :
    (Lines.divide badSecondNode).length = 8
      ∧ read (Lines.front 5 badSecondNode) = .error (.endOfInput 5)
      ∧ read (Lines.front 7 badSecondNode) = read badSecondNode
      ∧ ∃ fault, read badSecondNode = .error (.malformed 7 fault) ∧ 1 ≤ 7 ∧ 7 ≤ 8 := by
  have hlength : (Lines.divide badSecondNode).length = 8 := by decide +kernel
  have hread : read badSecondNode
      = .error (.malformed 7 (.notANumber .edgeCount "x" .strayCharacter)) := by cbv
  have hshort : read (Lines.front 5 badSecondNode) = .error (.endOfInput 5) := by cbv
  obtain ⟨hfront, hline⟩ := read_of_front badSecondNode 7 (by omega)
  refine ⟨hlength, hshort, ?_, _, hread, ?_⟩
  · rcases hfront with hsame | hended
    · exact hsame
    · have hseven : read (Lines.front 7 badSecondNode)
          = .error (.malformed 7 (.notANumber .edgeCount "x" .strayCharacter)) := by cbv
      rw [hended] at hseven
      cases hseven
  · have := hline 7 _ hread
    omega

end Graph
end LinearTime
