import Reflow.Cli
/-!
# The program

Reads the files that the command line names, and in a conversation answers each line before it takes
the next one.
-/

namespace Reflow

/-- Prints an output. -/
def Output.print (o : Output) : IO Unit := do
  (← IO.getStderr).putStr o.stderr
  let stdout ← IO.getStdout
  stdout.putStr o.stdout
  stdout.flush

/-- The text of a file, or the reason why there is none. -/
def readText (file : String) : IO (Except FileError String) := do
  try
    return .ok (← IO.FS.readFile file)
  catch e =>
    match e with
    | .noFileOrDirectory .. => return .error .missing
    | .inappropriateType _ 20 _ => return .error .notDirectory
    | .inappropriateType _ 21 _ => return .error .isDirectory
    | e => return .error (.device e.toString)

/-- Answers the lines of the standard input. -/
partial def converse (s : Session) : IO UInt32 := do
  let line ← (← IO.getStdin).getLine
  if line.isEmpty then return 0
  match replLine s line with
  | none => return 0
  | some (output, s) =>
    output.print
    converse s

end Reflow

open Reflow in
/-- Performs what the arguments ask for. -/
def main (args : List String) : IO UInt32 := do
  match Invocation.ofArgs? args with
  | none =>
    usage.print
    return 2
  | some i =>
    match ← i.start readText with
    | .conversation session => converse session
    | .finished output =>
      output.print
      return output.code.toUInt32
