import ExactAlgebra.Command.Run
import ExactAlgebra.Number.Estimate

/-!
# The command line program

Reads expressions from standard input, one on a line, and prints the result of a command in linear
or tree form.
-/

namespace ExactAlgebra

/-- How a command is written. -/
def usage : String :=
  "usage: [--notation polish|rpn] [--log-level DEBUG|INFO|WARNING|ERROR]\n" ++
    "  (parse | simplify | expand [--simplify] | derive LETTER | tree | program [--simplify])\n"

/-- All that is left of a stream. -/
partial def readAll (stream : IO.FS.Stream) (before : String) : IO String := do
  let line ← stream.getLine
  if line.isEmpty then return before else readAll stream (before ++ line)

end ExactAlgebra

open ExactAlgebra in
/-- The program. -/
def main (args : List String) : IO UInt32 := do
  match Options.read args with
  | .error .help =>
    IO.print usage
    return 0
  | .error .rejected =>
    IO.eprint usage
    return 2
  | .ok options =>
    let input ← readAll (← IO.getStdin) ""
    match options.run Estimate.root input with
    | .ok transcript =>
      IO.print transcript.stdout
      IO.eprint (transcript.stderr options.least)
      return transcript.status.toUInt32
    | .error _ => return 1
