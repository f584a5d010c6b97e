/-
  LinearTime.Main — the command line program.

  Loads the input that a call asks for, and prints what the call leaves behind.
-/

import LinearTime.Arguments

namespace LinearTime.CommandLine

/-- What an error of the system means for a file that was to be read. -/
def faultOf : IO.Error → FileFault
  | .permissionDenied .. => .forbidden
  | .inappropriateType _ _ details =>
    if details.toLower = "not a directory" then .notADirectory else .isDirectory
  | .invalidArgument .. => .nameTooLong
  | _ => .missing

/-- The bytes of a file. -/
def loadFile (path : String) : IO Input := do
  try return .ok (← IO.FS.readBinFile path).toList
  catch e => return .error (faultOf e)

/-- All bytes of standard input. -/
def loadInput : IO (List UInt8) := do
  return (← (← IO.getStdin).readBinToEnd).toList

/-- The input that a request needs. -/
def Request.load : Request → IO Input
  | .run [] _ => .ok <$> loadInput
  | .run [path] _ => loadFile path
  | .run (_ :: _ :: _) _ | .rejected | .help => return .error .missing

/-- The exit status; an abort shows as the one that shells give it. -/
def Ending.status : Ending → UInt32
  | .exited code => UInt32.ofNat code
  | .aborted => 134

end LinearTime.CommandLine

open LinearTime.CommandLine in
/-- Makes the call of the arguments; the exit status is that of its outcome. -/
def main (args : List String) : IO UInt32 := do
  let request := Arguments.read {} args
  let input ← request.load
  let outcome := request.outcome .addressable fun _ => input
  IO.eprint outcome.errors
  IO.print outcome.output
  return outcome.ending.status
