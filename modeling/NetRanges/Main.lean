import NetRanges.CommandLine

/-!
# The program

Runs the command line on the arguments of the process.
-/

/-- Writes the report on the arguments and returns its status. -/
def main (args : List String) : IO UInt32 := do
  let report := NetRanges.CommandLine.run (args.map String.toList)
  (← IO.getStdout).putStr (String.ofList report.output)
  (← IO.getStderr).putStr (String.ofList report.errors)
  return report.status
