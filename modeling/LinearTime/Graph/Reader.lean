/-
  LinearTime.Graph.Reader — reading graphs from the line format.

  Everything after a `#` is a comment; blank lines are skipped but counted.
  Lines are decoded one by one, so only a line that is needed can be at fault.
  Counts in the input are not trusted: blocks are read one after the other for
  as long as there are lines.

  Edges are added once all nodes are there, in the order in which they are
  read.

  Indices of marks are limited by the header, which may allow any number, and by
  the memory at hand: reading stops at a mark that it has no room for.

  Core only.
-/

import LinearTime.Graph.Basic
import LinearTime.Guard.Text

namespace LinearTime

/-- What a number in the input counts or names. -/
inductive NumberRole where
  | nodeCount
  | edgeCount
  | target
  deriving DecidableEq, Repr

/-- The wording of a role. -/
def NumberRole.text : NumberRole → String
  | .nodeCount => "the number of nodes"
  | .edgeCount => "the number of transitions"
  | .target => "a target node"

/-- What is wrong with a line. -/
inductive LineFault where
  | notANumber (role : NumberRole) (content : String) (fault : Text.NumberFault)
  | emptyEntry (content : String)
  | unknownHeaderKey (key : String)
  | attributeKey (fault : KeyFault)
  | notABoolean (key value : String)
  | label (fault : LabelFault)
  | targetOutOfRange (target count : Nat)
  | guard (fault : GuardFault)
  | outOfMemory (index : Nat)
  deriving DecidableEq, Repr

/-- The wording of a fault. -/
def LineFault.message : LineFault → String
  | .notANumber role content fault =>
    "expected " ++ role.text ++ ", found \"" ++ content ++ "\": " ++ fault.message
  | .emptyEntry content => "empty attribute in \"" ++ content ++ "\""
  | .unknownHeaderKey key => "unknown graph attribute " ++ key
  | .attributeKey fault => fault.message
  | .notABoolean key value =>
    "attribute " ++ key ++ " expects a boolean, found \"" ++ value ++ "\""
  | .label fault => fault.message
  | .targetOutOfRange target count =>
    "target " ++ target.repr ++ " exceeds the " ++ count.repr ++ " nodes"
  | .guard fault => fault.message
  | .outOfMemory index =>
    "memory allocation of " ++ (MarkSet.bytesUpTo index).repr ++ " bytes failed"

/-- Why an input is not a graph. -/
inductive ReadFault where
  | header (fault : HeaderFault)
  | undecodable
  | endOfInput (line : Nat)
  | malformed (line : Nat) (fault : LineFault)
  deriving DecidableEq, Repr

/-- The mark that the line needs memory for, if that is what is wrong. -/
def LineFault.missing? : LineFault → Option Nat
  | .outOfMemory index => some index
  | _ => none

/-- The mark that memory is missing for, if that is why. -/
def ReadFault.missing? : ReadFault → Option Nat
  | .malformed _ fault => fault.missing?
  | _ => none

/-- The wording of a fault. -/
def ReadFault.message : ReadFault → String
  | .header fault => fault.message
  | .undecodable => "stream did not contain valid UTF-8"
  | .endOfInput line => "unexpected end of input after line " ++ line.repr
  | .malformed line fault => "line " ++ line.repr ++ ": " ++ fault.message

/-! ## §1. Lines -/

/-- The lines still to be read, and how many were read. -/
structure Lines where
  rest : List (List UInt8)
  count : Nat := 0

namespace Lines

/-- Puts a byte in front of the first line, or starts a new line if it is a line
    feed. -/
def addToLines (b : UInt8) (lines : List (List UInt8)) : List (List UInt8) :=
  if b == 0x0A then [] :: lines
  else
    match lines with
    | [] => [[b]]
    | line :: lines => (b :: line) :: lines

/-- Divides bytes into lines, which end at a line feed or with the input. -/
def divide (bytes : List UInt8) : List (List UInt8) := bytes.foldr addToLines []

/-- The lines of an input. -/
def ofBytes (bytes : List UInt8) : Lines := { rest := divide bytes }

/-- What a line holds besides its comment and blanks at the ends. -/
def content (line : List Char) : List Char := Text.trim (line.takeWhile (· != '#'))

/-- The next line with content, and what remains. -/
def nextFrom : List (List UInt8) → Nat → Except ReadFault ((Nat × List Char) × Lines)
  | [], count => .error (.endOfInput count)
  | line :: rest, count =>
    match Text.Utf8.decode line with
    | .error _ => .error .undecodable
    | .ok cs =>
      match content cs with
      -- a blank line counts too
      | [] => nextFrom rest (count + 1)
      | c :: cs => .ok ((count + 1, c :: cs), ⟨rest, count + 1⟩)

end Lines

/-- A computation that consumes lines. -/
abbrev LineReader := StateT Lines (Except ReadFault)

namespace LineReader

/-- The next line with content, and its number. -/
def next : LineReader (Nat × List Char) := fun lines => Lines.nextFrom lines.rest lines.count

/-- Marks a fault as one of the line with this number. -/
def onLine {β : Type} (line : Nat) : Except LineFault β → LineReader β
  | .ok x => return x
  | .error fault => throw (.malformed line fault)

/-- The number on the next line with content. -/
def number (role : NumberRole) : LineReader (Nat × Nat) := do
  let (line, content) ← next
  match Text.readNumber content with
  | .ok n => return (line, n)
  | .error fault => throw (.malformed line (.notANumber role (String.ofList content) fault))

end LineReader

/-! ## §2. Attribute lines -/

/-- One entry of an attribute line: a key, and a value after `=`. -/
structure Entry where
  key : String
  value : Option String

namespace Entry

/-- Reads one entry; `line` is the attribute line it is part of. -/
def read (line entry : List Char) : Except LineFault Entry :=
  match Text.trim entry with
  | [] => .error (.emptyEntry (String.ofList line))
  | cs =>
    match Text.splitFirst? '=' cs with
    | some (key, value) =>
      .ok ⟨String.ofList (Text.trim key), some (String.ofList (Text.trim value))⟩
    | none => .ok ⟨String.ofList cs, none⟩

/-- Reads the entries of an attribute line; a lone `-` stands for none. -/
def readAll (line : List Char) : Except LineFault (List Entry) :=
  if line = ['-'] then .ok [] else (Text.splitOn ',' line).mapM (read line)

/-- The truth value of an entry; a bare key is true. -/
def flag (e : Entry) : Except LineFault Bool :=
  match e.value with
  | none | some "true" => .ok true
  | some "false" => .ok false
  | some other => .error (.notABoolean e.key other)

end Entry

/-- The last values given for the keys of a header. -/
structure HeaderValues where
  condition : Option String := none
  carrier : Option String := none
  count : Option String := none

namespace HeaderValues

/-- Takes over one entry; a bare key takes the value back. -/
def put (h : HeaderValues) (e : Entry) : Except LineFault HeaderValues :=
  match e.key with
  | "type" => .ok { h with condition := e.value }
  | "ac" => .ok { h with carrier := e.value }
  | "nsets" => .ok { h with count := e.value }
  | other => .error (.unknownHeaderKey other)

/-- The acceptance condition that the values describe. -/
def acceptance (h : HeaderValues) : Except HeaderFault Acceptance := do
  let condition ← Condition.read h.condition h.count
  let carrier ← Carrier.read (h.carrier.getD "")
  return { condition, carrier }

end HeaderValues

namespace Attributes

/-- Takes over one entry: a mark that is not `false`, or the label. -/
def put (memory : Memory) (a : Acceptance) (on : Carrier) (attributes : Attributes) (e : Entry) :
    Except LineFault Attributes := do
  match a.key e.key on with
  | .error fault => throw (.attributeKey fault)
  | .ok (.mark i) =>
    -- `accepting=false` names a mark and sets none; memory is needed only for marks that are
    -- set
    if ← e.flag then
      if memory.fits i then return { attributes with marks := attributes.marks.insert i }
      else throw (.outOfMemory i)
    else return attributes
  | .ok .label =>
    match Label.unescape (e.value.getD "").toList with
    | .error fault => throw (.label fault)
    | .ok label => return { attributes with label := some (String.ofList label) }

/-- Reads the attribute line of a node or an edge. -/
def read (memory : Memory) (a : Acceptance) (on : Carrier) (line : List Char) :
    Except LineFault Attributes := do
  (← Entry.readAll line).foldlM (put memory a on) {}

end Attributes

/-! ## §3. Graphs -/

namespace Graph

/-- An edge as it is read. -/
structure EdgeBlock where
  source : Nat
  target : Nat
  guard : Guard String
  action : String
  attributes : Attributes

/-- Reads the header line. -/
def readHeader : LineReader Acceptance := do
  let (line, content) ← LineReader.next
  let entries ← LineReader.onLine line (Entry.readAll content)
  let values ← LineReader.onLine line (entries.foldlM HeaderValues.put {})
  match values.acceptance with
  | .ok a => return a
  | .error fault => throw (.header fault)

/-- Reads the attribute line of a node or an edge. -/
def readAttributes (memory : Memory) (a : Acceptance) (on : Carrier) : LineReader Attributes := do
  let (line, content) ← LineReader.next
  LineReader.onLine line (Attributes.read memory a on content)

/-- Reads the four lines of an edge of a graph with `count` nodes. -/
def readEdge (memory : Memory) (a : Acceptance) (count source : Nat) : LineReader EdgeBlock := do
  let (line, target) ← LineReader.number .target
  -- checked before the rest of the edge is read
  if count ≤ target then throw (.malformed line (.targetOutOfRange target count))
  let (line, content) ← LineReader.next
  let guard ← LineReader.onLine line ((Guard.read (String.ofList content)).mapError .guard)
  let (_, action) ← LineReader.next
  let attributes ← readAttributes memory a .edges
  return { source, target, guard, action := String.ofList action, attributes }

/-- Reads a number of edges. -/
def readEdges (memory : Memory) (a : Acceptance) (count source : Nat) :
    Nat → LineReader (List EdgeBlock)
  | 0 => return []
  | n + 1 => do
    let edge ← readEdge memory a count source
    return edge :: (← readEdges memory a count source n)

/-- Reads a number of nodes, the first of which has index `v`. -/
def readNodes (memory : Memory) (a : Acceptance) (count : Nat) :
    Nat → (v : Nat) → LineReader (List Attributes × List EdgeBlock)
  | 0, _ => return ([], [])
  | n + 1, v => do
    let (_, edgeCount) ← LineReader.number .edgeCount
    let attributes ← readAttributes memory a .nodes
    let edges ← readEdges memory a count v edgeCount
    let (moreNodes, moreEdges) ← readNodes memory a count n (v + 1)
    return (attributes :: moreNodes, edges ++ moreEdges)

/-- The graph of some nodes and edges. -/
def ofBlocks (a : Acceptance) (nodes : List Attributes) (edges : List EdgeBlock) : Graph String :=
  let bare : Graph String := nodes.foldl addNode { acceptance := a }
  -- the reader has checked both ends, so no edge is lost here
  edges.foldl
    (fun g e => (g.addEdge? e.source e.target e.guard e.action e.attributes).getD g) bare

/-- Reads a graph from lines. -/
def readLines (memory : Memory) : LineReader (Graph String) := do
  let (_, count) ← LineReader.number .nodeCount
  let a ← readHeader
  let (nodes, edges) ← readNodes memory a count count 0
  return ofBlocks a nodes edges

/-- Reads a graph from bytes. What stands behind it is not looked at. -/
def readWithin (memory : Memory) (bytes : List UInt8) : Except ReadFault (Graph String) :=
  ((readLines memory).run (Lines.ofBytes bytes)).map (·.1)

/-- Reads a graph from bytes, with as much memory as its marks take. -/
def read (bytes : List UInt8) : Except ReadFault (Graph String) := readWithin .unlimited bytes

/-- Reads a graph from a text. -/
def readText (text : String) : Except ReadFault (Graph String) :=
  read (Text.Utf8.encode text.toList)

end Graph
end LinearTime
