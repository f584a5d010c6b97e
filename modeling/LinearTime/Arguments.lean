/-
  LinearTime.Arguments — how a call is written.

  Options come before, between and behind files: `--stats`, and `-v` or
  `--verbosity` alone or with `=` and a level, each at most once.  After `--` all
  arguments are files, a lone `-` always is one, and `-h` or `--help` asks for
  help.  Arguments are read from left to right, and the first one that decides
  the matter does so.

  Core only.
-/

import LinearTime.CommandLine

namespace LinearTime.CommandLine

/-- What arguments ask for. -/
inductive Request where
  | rejected
  | help
  | run (files : List String) (stats : Bool)
  deriving DecidableEq, Repr

/-- The options and files so far. -/
structure Arguments where
  stats : Bool := false
  verbosity : Option String := none
  files : List String := []

namespace Arguments

/-- What one argument does: it adds something, or it decides what is asked for. -/
abbrev Step := Except Request Arguments

/-- Takes over `--stats`, which may be given once. -/
def addStats (a : Arguments) : Step :=
  if a.stats then .error .rejected else .ok { a with stats := true }

/-- Takes over a level of verbosity, which may be given once. -/
def addVerbosity (a : Arguments) (level : String) : Step :=
  if a.verbosity.isNone ∧ level ∈ ["info", "debug", "trace"] then
    .ok { a with verbosity := some level }
  else .error .rejected

/-- Takes over a file. -/
def addFile (a : Arguments) (file : String) : Arguments := { a with files := a.files ++ [file] }

/-- The short options of one argument, from the first letter behind `-` on. -/
def addShort (a : Arguments) : List Char → Step
  | [] => .ok a
  | 'h' :: _ => .error .help
  | 'v' :: '=' :: level => a.addVerbosity (String.ofList level)
  | 'v' :: cs => do addShort (← a.addVerbosity "info") cs
  | _ :: _ => .error .rejected

/-- Takes over one argument in front of `--`. -/
def add (a : Arguments) (arg : String) : Step :=
  match arg.toList with
  | '-' :: '-' :: name =>
    if arg = "--stats" then a.addStats
    else if arg = "--help" then .error .help
    else
      match Text.stripStart? "verbosity".toList name with
      | some [] => a.addVerbosity "info"
      | some ('=' :: level) => a.addVerbosity (String.ofList level)
      | _ => .error .rejected
  | '-' :: c :: cs => a.addShort (c :: cs)
  | _ => .ok (a.addFile arg)

/-- Reads the arguments one after the other; after `--` all are files. -/
def read (a : Arguments) : List String → Request
  | [] => .run a.files a.stats
  | arg :: args =>
    if arg = "--" then .run (a.files ++ args) a.stats
    else
      match a.add arg with
      | .ok a => read a args
      | .error request => request

end Arguments

/-- What the command says about itself. -/
def description : String :=
  "Removes useless states and acceptance marks from a Büchi graph\n\n" ++ usage
    ++ "\nArguments:\n"
    ++ "  [file]...  the graph to reduce, standard input if omitted\n"
    ++ "\nOptions:\n"
    ++ "  -v, --verbosity[=<verbosity>]  [possible values: info, debug, trace]\n"
    ++ "      --stats                    print a summary of the reduction to stderr\n"
    ++ "  -h, --help                     Print help\n"

/-- What a request leaves behind, given the memory at hand and the input that it asks for. -/
def Request.outcome (request : Request) (memory : Memory) (input : Option String → Input) :
    Outcome :=
  match request with
  | .rejected => { ending := .exited 2 }
  | .help => { ending := .exited 0, output := description }
  | .run files stats => (Call.ofFiles files stats).outcome memory input

end LinearTime.CommandLine
