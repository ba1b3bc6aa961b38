import Formula.CommandLine.Run

/-!
# The program

Performs a run: reads standard input when the arguments leave it wanted, writes the output and ends with
its exit code. Nothing is decided here.
-/

open Formula.CommandLine

/-- Writes an output and gives its exit code. -/
def perform (o : Output) : IO UInt32 := do
  (← IO.getStdout).putStr o.stdout
  (← IO.getStderr).putStr o.stderr
  return o.code.toUInt32

/-- What a stream holds up to its end, after what has been read already. -/
partial def readAll (input : IO.FS.Stream) (before : ByteArray) : IO ByteArray := do
  let more ← input.read 65536
  if more.isEmpty then return before
  readAll input (before ++ more)

/-- The program. -/
def main (arguments : List String) : IO UInt32 := do
  match plan arguments with
  | .done o => perform o
  | .reading answer =>
    let input ← readAll (← IO.getStdin) .empty
    perform (answer input)
