import SolverLog.CommandLine.Command
import SolverLog.History.Table
import SolverLog.History.Walk
import SolverLog.Json.Schema
import SolverLog.Source

/-!
# Answers to command lines

A command line that is not a command is answered with the exit code 2, and a command whose file has
no document with the exit code 1 and a message. Otherwise the code is 0, and there is a text on the
standard output. What the warnings of the log look like on the standard error is up to the logger, and
the text about usage up to the reader of command lines.
-/

namespace SolverLog.CommandLine

/-- What a run of the program leaves. -/
inductive Answer where
  /-- The text on the standard output, and the warnings of the log. -/
  | success (output : String) (warnings : List Builder.Event)
  /-- The message on the standard error. -/
  | failure (message : String)
  /-- The command line is not a command. -/
  | usage
deriving DecidableEq, Repr

namespace Answer

/-- The exit code. -/
def exit : Answer → Nat
  | success .. => 0
  | failure _ => 1
  | usage => 2

/-- The text on the standard output. -/
def output : Answer → String
  | success output _ => output
  | failure _ | usage => ""

/-- The message of a failure. -/
def errors : Answer → String
  | failure message => message
  | success .. | usage => ""

/-- The warnings of a success. -/
def warnings : Answer → List Builder.Event
  | success _ warnings => warnings
  | failure _ | usage => []

/-- The answer to a command that fails: what could not be done with which file, and why. -/
def ofFailure (what path cause : String) : Answer :=
  .failure
    ("Error: failed to " ++ what ++ " " ++ path ++ "\n\nCaused by:\n    " ++ cause ++ "\n")

/-- The answer to a command whose file has no document. -/
def ofLoadError (path : String) : LoadError → Answer
  | .unreadable cause => ofFailure "read" path cause.reason
  | .malformed error => ofFailure "parse" path error.message

end Answer

namespace Command

/-- The text that a command writes for a document. -/
def output (document : Document) : Command → String
  | parse _ _ compact globals =>
    let json := if globals then document.toJson else document.stepsToJson
    (if compact then json.compact else json.indented) ++ "\n"
  | history _ _ query json =>
    let points := History.points query document.steps
    if json then (History.toJson points).indented ++ "\n" else History.table query.key points

/-- The answer to a command, given the content of its file. -/
def answer (command : Command) (content : FileContent) : Answer :=
  match Document.ofFile command.options content with
  | .ok document => .success (command.output document) (content.warnings command.options)
  | .error error => .ofLoadError command.path error

end Command

/-- The answer to a command line, given the contents of files by their paths. -/
def answer (arguments : List String) (contents : String → FileContent) : Answer :=
  match Command.ofArguments? arguments with
  | some command => command.answer (contents command.path)
  | none => .usage

end SolverLog.CommandLine
