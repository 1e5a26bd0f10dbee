import ProtocolProver.CommandLine.Basic

/-!
# The program

Reads the files that the arguments name and prints the report.
-/

open ProtocolProver

/-- The text of a file, if it can be read. -/
def readText (path : String) : IO (Option String) := do
  try return some (← IO.FS.readFile path)
  catch _ => return none

def main (args : List String) : IO UInt32 := do
  let result ← CommandLine.run readText args
  IO.print result.output
  return result.exit.toUInt32
