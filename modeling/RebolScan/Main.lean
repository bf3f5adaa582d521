import RebolScan.Command

/-!
# The program

Reads the file that the command line names, and prints what `Command.run` says.
-/

set_option autoImplicit false

open RebolScan

/-- Runs one command line; the result is the exit code. -/
def main (args : List String) : IO UInt32 := do
  let command := Command.parse args
  let content ← match command.path? with
    | some path => try some <$> IO.FS.readBinFile path catch _ => pure none
    | none => pure none
  let outcome := command.run (content.map fun bytes => bytes.toList)
  (← IO.getStdout).putStr outcome.out
  (← IO.getStderr).putStr outcome.err
  return outcome.code.toUInt32
