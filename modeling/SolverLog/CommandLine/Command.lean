import SolverLog.CommandLine.Arguments
import SolverLog.History.Query
import SolverLog.Log

/-!
# Commands

There are two commands: `parse FILE` writes the document of a log, and `history FILE KEY` the
history of a field. `Command.ofArguments?` gives nothing for a command line that is not one of
them.
-/

namespace SolverLog.CommandLine

open Number

/-- What the user asks for. -/
inductive Command where
  | parse (path : String) (options : Options) (compact globals : Bool)
  | history (path : String) (options : Options) (query : History.Query) (json : Bool)

namespace Command

/-- The options on how a log is read. -/
def readingVocabulary : Vocabulary :=
  [("array-indicator", .value), ("strict", .nothing)]

/-- The options of the command that writes a document. -/
def parseVocabulary : Vocabulary :=
  readingVocabulary ++ [("compact", .nothing), ("globals", .nothing)]

/-- The options of the command that writes a history. -/
def historyVocabulary : Vocabulary :=
  readingVocabulary ++
    [("status", .value), ("level", .value), ("t-min", .number), ("t-max", .number),
      ("step-min", .value), ("step-max", .value), ("step-key", .value), ("time-key", .value),
      ("json", .nothing)]

/-- How the log is to be read. -/
def readingOptions (arguments : Arguments) : Options where
  arrayIndicator := (arguments.options.value? "array-indicator").getD Payload.defaultIndicator
  requireClosed := arguments.has "strict"

/-- A range of which one end at least is given. -/
def range? {α : Type} (first last : Option α) (least greatest : α) : Option (α × α) :=
  if first.isSome || last.isSome then some (first.getD least, last.getD greatest) else none

/-- What is to be collected. -/
def query? (arguments : Arguments) (key : String) : Option History.Query := do
  let level ← arguments.optional? integer? "level"
  let firstTime ← arguments.optional? Binary64.read? "t-min"
  let lastTime ← arguments.optional? Binary64.read? "t-max"
  let firstStep ← arguments.optional? integer? "step-min"
  let lastStep ← arguments.optional? integer? "step-max"
  return {
    key
    status := arguments.options.value? "status"
    time := range? firstTime lastTime (.infinite true) (.infinite false)
    steps := range? firstStep lastStep leastInteger greatestInteger
    level
    stepKey := (arguments.options.value? "step-key").getD "step"
    timeKey := (arguments.options.value? "time-key").getD "tn" }

/-- The command that writes a document. -/
def parse? (arguments : Arguments) : Option Command :=
  match arguments.operands with
  | [path] =>
    if path = "" then none
    else
      some (parse path (readingOptions arguments) (arguments.has "compact")
        (arguments.has "globals"))
  | _ => none

/-- The command that writes a history. -/
def history? (arguments : Arguments) : Option Command :=
  match arguments.operands with
  | [path, key] =>
    if path = "" then none
    else
      (query? arguments key).map fun query =>
        history path (readingOptions arguments) query (arguments.has "json")
  | _ => none

/-- Reads a command line. -/
def ofArguments? : List String → Option Command
  | "parse" :: rest => (Arguments.read? parseVocabulary rest).bind parse?
  | "history" :: rest => (Arguments.read? historyVocabulary rest).bind history?
  | _ => none

/-- The file with the log. -/
def path : Command → String
  | parse path .. => path
  | history path .. => path

/-- How the log is to be read. -/
def options : Command → Options
  | parse _ options .. => options
  | history _ options .. => options

end Command

end SolverLog.CommandLine
