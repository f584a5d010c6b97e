/-
  LinearTime.CommandLine — the command that reduces a graph.

  `sccreduce [OPTIONS] [file]...` reads a graph from the file, or from standard
  input, reduces it and writes it to standard output.  With `--stats` a summary
  goes to standard error.  This module decides what a call does once its options
  and files are known; how they are written is up to `LinearTime.Arguments`, and
  reading and printing are left to `LinearTime.Main`.

  Core only.
-/

import LinearTime.Graph.Reader
import LinearTime.Graph.Writer
import LinearTime.Reduction

namespace LinearTime.CommandLine

/-! ## §1. Inputs -/

/-- Why a file has no content to read. -/
inductive FileFault where
  | missing
  | forbidden
  | notADirectory
  | isDirectory
  | nameTooLong
  deriving DecidableEq, Repr

/-- The wording of a fault, with the number that systems give it. -/
def FileFault.message : FileFault → String
  | .missing => "No such file or directory (os error 2)"
  | .forbidden => "Permission denied (os error 13)"
  | .notADirectory => "Not a directory (os error 20)"
  | .isDirectory => "Is a directory (os error 21)"
  | .nameTooLong => "File name too long (os error 36)"

/-- The bytes of an input, or why there are none. -/
abbrev Input := Except FileFault (List UInt8)

/-- Why no graph could be loaded. -/
inductive LoadFault where
  | noInput (fault : FileFault)
  | unreadable (fault : ReadFault)
  deriving DecidableEq, Repr

/-- The wording of a fault. -/
def LoadFault.message : LoadFault → String
  | .noInput fault => fault.message
  | .unreadable fault => fault.message

/-- The graph in an input. -/
def load (memory : Memory) (input : Input) : Except LoadFault (Graph String) :=
  match input with
  | .error fault => .error (.noInput fault)
  | .ok bytes => (Graph.readWithin memory bytes).mapError .unreadable

/-! ## §2. Calls -/

/-- How a process ends: with a status of its own, or by an abort that it cannot help. -/
inductive Ending where
  | exited (code : Nat)
  | aborted
  deriving DecidableEq, Repr

/-- What a call leaves behind. -/
structure Outcome where
  ending : Ending
  output : String := ""
  errors : String := ""
  deriving DecidableEq, Repr

/-- What a call leaves behind that has no graph to reduce.  A fault is reported, but where
    memory is missing, the process ends at once. -/
def LoadFault.outcome : LoadFault → Outcome
  | .noInput fault =>
    { ending := .exited 1, errors := "can't load the graph: " ++ fault.message ++ "\n" }
  | .unreadable fault =>
    -- nothing can be reported any more once an allocation has failed
    match fault.missing? with
    | some index =>
      { ending := .aborted, errors := (LineFault.outOfMemory index).message ++ "\n" }
    | none => { ending := .exited 1, errors := "can't load the graph: " ++ fault.message ++ "\n" }

/-- Reduces the graph in an input. -/
def reduceInput (memory : Memory) (stats : Bool) (input : Input) : Outcome :=
  match load memory input with
  | .error fault => fault.outcome
  | .ok g =>
    let r := g.reduce
    { ending := .exited 0
      output := r.graph.text
      errors := if stats then r.summary.text ++ "\n" else "" }

/-- The line that shows how the command is called. -/
def usage : String := "Usage: sccreduce [OPTIONS] [file]...\n"

/-- What a call is about. -/
inductive Call where
  | showUsage
  | reduce (file : Option String) (stats : Bool)
  deriving DecidableEq, Repr

/-- The call with these files, and with `--stats` or without. -/
def Call.ofFiles (files : List String) (stats : Bool) : Call :=
  match files with
  | [] => .reduce none stats
  | [file] => .reduce (some file) stats
  | _ :: _ :: _ => .showUsage

/-- What a call leaves behind, given the memory at hand and the input that it asks for. -/
def Call.outcome (call : Call) (memory : Memory) (input : Option String → Input) : Outcome :=
  match call with
  | .showUsage => { ending := .exited 0, output := usage }
  | .reduce file stats => reduceInput memory stats (input file)

end LinearTime.CommandLine
