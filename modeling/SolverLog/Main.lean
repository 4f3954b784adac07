import SolverLog.CommandLine.Answer

/-!
# The program

Reads the file that a command line names, and writes the answer.
-/

open SolverLog CommandLine

/-- The content of a file. -/
def readContent (path : String) : IO FileContent := do
  try
    return .ok (← IO.FS.readBinFile path)
  catch
    | .noFileOrDirectory .. => return .error .notFound
    | error => return .error (.other (toString error))

/-- Answers a command line. -/
def main (arguments : List String) : IO UInt32 := do
  let answer ← match Command.ofArguments? arguments with
    | some command => pure (command.answer (← readContent command.path))
    | none => pure Answer.usage
  for warning in answer.warnings do
    IO.eprintln warning.text
  IO.print answer.output
  IO.eprint answer.errors
  return answer.exit.toUInt32
