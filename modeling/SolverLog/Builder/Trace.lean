import SolverLog.Builder.Move

/-!
# The trace of reading a log

Reading a log leaves a trace of events: each line of commentary, each section opened or closed with
the number of open sections, each region of fast steps opened, and at the end the sections and
regions that were never closed. A move that is refused leaves no event.
-/

namespace SolverLog.Builder

/-- How much an event matters. -/
inductive Severity where
  | trace
  | debug
  | warn
deriving DecidableEq, Repr

/-- An event while a log is read. -/
inductive Event where
  /-- A line was passed over, being no record. -/
  | skipped (line : Nat)
  /-- A section was opened. -/
  | opened (line : Nat) (name : String) (depth : Nat)
  /-- A section was closed. -/
  | closed (line : Nat) (name : String) (depth : Nat)
  /-- A region of fast steps was opened. -/
  | fastSteps (line level : Nat)
  /-- A section was open at the end of the log. -/
  | neverClosed (name : String) (line : Nat)
  /-- Regions of fast steps were open at the end of the log. -/
  | fastStepsNeverClosed (count : Nat)
deriving DecidableEq, Repr

namespace Severity

/-- The name of a severity in a trace. -/
def name : Severity → String
  | trace => "TRACE"
  | debug => "DEBUG"
  | warn => "WARN"

end Severity

namespace Event

/-- How much an event matters. -/
def severity : Event → Severity
  | skipped _ => .trace
  | opened .. | closed .. | fastSteps .. => .debug
  | neverClosed .. | fastStepsNeverClosed _ => .warn

/-- What an event says. -/
def message : Event → String
  | skipped line => "line " ++ Nat.repr line ++ ": not a log record, skipped"
  | opened line name depth =>
    "line " ++ Nat.repr line ++ ": open `" ++ name ++ "` at depth " ++ Nat.repr depth
  | closed line name depth =>
    "line " ++ Nat.repr line ++ ": close `" ++ name ++ "` at depth " ++ Nat.repr depth
  | fastSteps line level =>
    "line " ++ Nat.repr line ++ ": fast steps, time level " ++ Nat.repr level
  | neverClosed name line =>
    "section `" ++ name ++ "` opened on line " ++ Nat.repr line ++ " is never closed"
  | fastStepsNeverClosed count => Nat.repr count ++ " fast-steps region(s) never closed"

/-- The line of a trace for an event. -/
def text (event : Event) : String :=
  event.severity.name ++ " " ++ event.message

end Event

/-- The event of a move that is carried out in a state, if it has one. -/
def Move.event? (line : Nat) (move : Move) (state : State) : Option Event :=
  match move with
  | skip => some (.skipped line)
  | enter opened => some (.opened line opened.name (state.depth + 1))
  | leave => state.frames.head?.map fun frame => .closed line frame.opened.name frame.depth
  | enterFast => some (.fastSteps line (state.fastSteps + 1))
  | set .. | expect _ | expectFast | leaveFast => none

/-- The events of the moves of one line, up to one that is refused. -/
def events (line : Nat) : List Move → State → List Event
  | [], _ => []
  | move :: rest, state =>
    match move.apply line state with
    | .reached next => (move.event? line state).toList ++ events line rest next
    | .refused .. => []

/-- The events of the lines of a log from the line of that number on. -/
def eventsOfLines (indicator : String) : Nat → List String → State → List Event
  | _, [], _ => []
  | number, line :: following, state =>
    let moves := Move.ofLine indicator line following
    events number moves state ++
      match run number moves state with
      | .reached next => eventsOfLines indicator (number + 1) following next
      | .refused .. => []

/-- The events at the end of a log: the open sections, innermost first, then the open regions of
fast steps. -/
def State.endEvents (state : State) : List Event :=
  (state.frames.map fun frame => .neverClosed frame.opened.name frame.line) ++
    if state.fastSteps = 0 then [] else [.fastStepsNeverClosed state.fastSteps]

end SolverLog.Builder
