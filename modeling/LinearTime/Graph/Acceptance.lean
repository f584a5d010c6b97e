/-
  LinearTime.Graph.Acceptance — acceptance conditions and attributes.

  A graph has one acceptance set (a Büchi graph) or any number of them (a
  generalized one), and its marks lie either on nodes or on edges.  The header
  line of a graph says which.  Nodes and edges have marks and a label; in a
  Büchi graph the mark is written `accepting`, in a generalized one the mark
  of set `i` is written `acc<i>`.

  Core only.
-/

import LinearTime.MarkSet
import LinearTime.Text.Decimal
import LinearTime.Graph.Label

namespace LinearTime

/-- How many acceptance sets there are, and how they are named. -/
inductive Condition where
  | buchi
  | generalized (sets : Nat)
  deriving DecidableEq, Repr

/-- What carries acceptance marks. -/
inductive Carrier where
  | nodes
  | edges
  deriving DecidableEq, Repr

/-- Why a header names no acceptance condition. -/
inductive HeaderFault where
  | unknownCondition (name : String)
  | unknownCarrier (name : String)
  | countForBuchi (count : String)
  | countMissing
  | badCount (count : String)
  deriving DecidableEq, Repr

/-- The wording of a fault. -/
def HeaderFault.message : HeaderFault → String
  | .unknownCondition name => "invalid graph type: \"" ++ name ++ "\""
  | .unknownCarrier name => "invalid accepting type: \"" ++ name ++ "\""
  | .countForBuchi count =>
    "invalid number of acceptance sets: " ++ count ++ " given for a Büchi graph"
  | .countMissing =>
    "invalid number of acceptance sets: missing for a generalized Büchi graph"
  | .badCount count => "invalid number of acceptance sets: " ++ count

namespace Condition

/-- The number of acceptance sets. -/
def sets : Condition → Nat
  | buchi => 1
  | generalized n => n

/-- Reads a condition from its name and the number of sets, as far as given. A
    Büchi graph has no number, a generalized one a positive number. -/
def read (name count : Option String) : Except HeaderFault Condition :=
  match name, count with
  | some "ba", none => .ok buchi
  | some "ba", some n => .error (.countForBuchi n)
  | some "gba", none => .error .countMissing
  | some "gba", some n =>
    match Text.readNumber n.toList with
    | .ok (sets + 1) => .ok (generalized (sets + 1))
    | _ => .error (.badCount n)
  | other, _ => .error (.unknownCondition (other.getD ""))

/-- The name of the mark of set `i`. -/
def markName (c : Condition) (i : Nat) : String :=
  match c with
  | buchi => "accepting"
  | generalized _ => "acc" ++ i.repr

/-- The set whose mark has this name, if there is one. -/
def readMark? (c : Condition) (name : String) : Option Nat :=
  match c with
  | buchi => if name = "accepting" then some 0 else none
  | generalized n => do
    let digits ← Text.stripStart? "acc".toList name.toList
    match Text.readNumber digits with
    -- the mark of a set that is not there is no mark
    | .ok i => if i < n then some i else none
    | .error _ => none

end Condition

namespace Carrier

/-- The written form. -/
def text : Carrier → String
  | nodes => "nodes"
  | edges => "edges"

/-- Reads the written form. -/
def read (name : String) : Except HeaderFault Carrier :=
  if name = "nodes" then .ok nodes
  else if name = "edges" then .ok edges
  else .error (.unknownCarrier name)

end Carrier

/-- The acceptance condition of a graph, and where its marks lie. -/
structure Acceptance where
  condition : Condition := .buchi
  carrier : Carrier := .nodes
  deriving DecidableEq, Repr

/-- What an attribute of a node or an edge is about. -/
inductive AttributeKey where
  | mark (index : Nat)
  | label
  deriving DecidableEq, Repr

/-- Why an attribute has no place on a node or an edge. -/
inductive KeyFault where
  | misplacedMark (key : String) (on expected : Carrier)
  | unknown (key : String)
  deriving DecidableEq, Repr

/-- The wording of a fault. -/
def KeyFault.message : KeyFault → String
  | .misplacedMark key on expected =>
    "acceptance attribute " ++ key ++ " on " ++ on.text
      ++ " while acceptance is on " ++ expected.text
  | .unknown key => "unknown attribute " ++ key

namespace Acceptance

/-- The number of acceptance sets. -/
def sets (a : Acceptance) : Nat := a.condition.sets

/-- The header line. -/
def text (a : Acceptance) : String :=
  match a.condition with
  | .buchi => "type=ba,ac=" ++ a.carrier.text
  | .generalized n => "type=gba,ac=" ++ a.carrier.text ++ ",nsets=" ++ n.repr

/-- What `key` refers to on a node or an edge. Marks are allowed on the carrier
    only. -/
def key (a : Acceptance) (key : String) (on : Carrier) : Except KeyFault AttributeKey :=
  if key = "label" then .ok .label
  else
    match a.condition.readMark? key with
    -- known, but only in the right place
    | some i => if on = a.carrier then .ok (.mark i) else .error (.misplacedMark key on a.carrier)
    | none => .error (.unknown key)

end Acceptance

/-- The marks of a node or an edge, and its label. -/
structure Attributes where
  marks : MarkSet := .empty
  label : Option String := none

namespace Attributes

/-- Drops neighbours that are equal. -/
def dedup : List String → List String
  | [] => []
  | x :: xs =>
    match dedup xs with
    | [] => [x]
    | y :: ys => if x = y then y :: ys else x :: y :: ys

/-- The attribute line: the names of the marks, each once, then the label. -/
def line (c : Condition) (a : Attributes) : String :=
  let label := a.label.map fun l => "label=" ++ String.ofList (Label.escape l.toList)
  -- all marks of a Büchi graph have one name
  match dedup (a.marks.toList.map c.markName) ++ label.toList with
  | [] => "-"
  | entries => ",".intercalate entries

end Attributes
end LinearTime
