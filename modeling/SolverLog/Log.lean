import SolverLog.Builder.Assembly
import SolverLog.Builder.Trace
import SolverLog.Text.Lines

/-!
# Reading logs

A log is a text of lines. Reading it gives its document, or the first structure error; and the
trace of reading it.
-/

namespace SolverLog

open Builder

/-- How logs are read. -/
structure Options where
  /-- The end of the keys whose values stand on the lines that follow. -/
  arrayIndicator : String := Payload.defaultIndicator
  /-- Whether a section that is open at the end of the log is an error. -/
  requireClosed : Bool := false
deriving DecidableEq, Repr

/-- The document of a state at the end of a log. -/
def Builder.State.finish (options : Options) (state : State) : Except StructureError Document :=
  match state.frames with
  | frame :: _ =>
    if options.requireClosed then .error (.unclosedSection frame.line frame.opened.name)
    else .ok state.document
  | [] => .ok state.document

/-- The document of an outcome. -/
def Builder.Outcome.finish (options : Options) : Outcome → Except StructureError Document
  | reached state => state.finish options
  | refused error _ => .error error

namespace Document

/-- Reads the lines of a log. -/
def ofLines (options : Options) (lines : List String) : Except StructureError Document :=
  (runLines options.arrayIndicator 1 lines .initial).finish options

/-- Reads a log. -/
def ofText (options : Options) (text : String) : Except StructureError Document :=
  ofLines options (Text.lines text)

end Document

/-- The trace of reading the lines of a log. The events at the end are there only if the log has a
document. -/
def traceLines (options : Options) (lines : List String) : List Event :=
  eventsOfLines options.arrayIndicator 1 lines .initial ++
    match runLines options.arrayIndicator 1 lines .initial with
    | .reached state =>
      match state.finish options with
      | .ok _ => state.endEvents
      | .error _ => []
    | .refused .. => []

end SolverLog
