import ClauseTree.Command.Report

/-!
# The command

Reads the arguments and the input, and writes the answer.
-/

namespace ClauseTree.Command

/-- The bytes of the input, if it can be read. -/
def readInput (o : Options) : IO (Option ByteArray) :=
  try
    match o.input with
    | some file => return some (← IO.FS.readBinFile file)
    | none => return some (← (← IO.getStdin).readBinToEnd)
  catch _ => return none

/-- The answer to what the arguments ask for. -/
def answer : Option (Options × StatementKind) → IO Report
  | some (o, kind) => return Report.ofBytes o kind (← readInput o)
  | none => return Report.usage

end ClauseTree.Command

open ClauseTree

/-- Compiles the document that the arguments or the environment name. -/
def main (args : List String) : IO UInt32 := do
  let environment ← IO.getEnv "OXIDE_SQL_INPUT"
  let report ← Command.answer (Options.parse? args environment)
  (← IO.getStderr).putStr report.stderr
  (← IO.getStdout).putStr report.stdout
  return report.code
