import SolverLog.Builder.State
import SolverLog.Record
import SolverLog.StructureError

/-!
# Moves: reading a log one step at a time

A record is carried out as a list of moves (`Move.ofRecord`), and every move either leads from one
state to the next or is refused and leaves the state as it was (`Move.apply_refused`). A marker's
fields belong to the section that it opens or closes: they are set after the section is opened,
and after it is checked that it can be closed but before it is.
-/

namespace SolverLog.Builder

/-- One step of reading a log. -/
inductive Move where
  /-- Passes over a line of commentary. -/
  | skip
  /-- Sets a new key of the current dictionary. -/
  | set (key : String) (value : Value)
  /-- Opens a section. -/
  | enter (opened : Section)
  /-- Checks that a section is the innermost open one. -/
  | expect (closed : Section)
  /-- Closes the innermost open section. -/
  | leave
  /-- Opens a region of fast steps. -/
  | enterFast
  /-- Checks that a region of fast steps is open. -/
  | expectFast
  /-- Closes a region of fast steps. -/
  | leaveFast
deriving DecidableEq

/-- What comes of carrying out moves: the state reached, or the state in which a move was refused
and why. -/
inductive Outcome where
  | reached (state : State)
  | refused (error : StructureError) (state : State)

namespace Move

/-- Carries out a move on a line. -/
def apply (line : Nat) (move : Move) (state : State) : Outcome :=
  match move with
  | skip => .reached state
  | set key value =>
    match (state.entries state.current).value? key with
    | some _ => .refused (.duplicateKey line key state.path) state
    | none => .reached (state.set state.current key (.value value))
  | enter opened =>
    let place := state.place opened
    match state.vacancy place with
    | .free =>
      let number := state.dicts.size
      .reached ((state.addAt (state.newEntries opened) place).enter line opened number)
    | .held number => .reached (state.enter line opened number)
    | .blocked => .refused (.duplicateKey line place.key state.path) state
  | expect closed =>
    match state.frames with
    | [] => .refused (.unexpectedEnd line closed.name) state
    | frame :: _ =>
      if frame.opened = closed then .reached state
      else .refused (.mismatchedEnd line closed.name frame.opened.name) state
  | leave => .reached { state with frames := state.frames.tail }
  | enterFast => .reached { state with fastSteps := state.fastSteps + 1 }
  | expectFast =>
    if state.fastSteps = 0 then .refused (.unbalancedFastSteps line) state else .reached state
  | leaveFast => .reached { state with fastSteps := state.fastSteps - 1 }

/-- A move that is refused leaves the state as it was. -/
theorem apply_refused {line : Nat} {move : Move} {state last : State} {error : StructureError}
    (h : move.apply line state = .refused error last) : last = state := by
  cases move with
  | skip | leave | enterFast | leaveFast => simp [apply] at h
  | set key value =>
    simp only [apply] at h
    split at h
    · exact (Outcome.refused.inj h).2.symm
    · simp at h
  | enter opened =>
    simp only [apply] at h
    split at h
    · simp at h
    · simp at h
    · exact (Outcome.refused.inj h).2.symm
  | expect closed =>
    simp only [apply] at h
    split at h
    · exact (Outcome.refused.inj h).2.symm
    · split at h
      · simp at h
      · exact (Outcome.refused.inj h).2.symm
  | expectFast =>
    simp only [apply] at h
    split at h
    · exact (Outcome.refused.inj h).2.symm
    · simp at h

/-- The moves of a record. -/
def ofRecord (record : Record) : List Move :=
  let fields := record.payload.map fun (key, value) => set key value
  match Marker.ofLabel record.label with
  | .remark => fields
  | .opens opened => enter opened :: fields
  | .closes closed => expect closed :: fields ++ [leave]
  | .beginsFastSteps => fields ++ [enterFast]
  | .endsFastSteps => expectFast :: fields ++ [leaveFast]

/-- The moves of a line that the lines `following` follow. -/
def ofLine (indicator line : String) (following : List String) : List Move :=
  match Record.read? indicator line following with
  | some record => ofRecord record
  | none => [skip]

end Move

/-- Carries out the moves of one line, up to one that is refused. -/
def run (line : Nat) : List Move → State → Outcome
  | [], state => .reached state
  | move :: rest, state =>
    match move.apply line state with
    | .reached next => run line rest next
    | .refused error last => .refused error last

/-- Carries out the lines of a log from the line of that number on, up to a move that is refused. -/
def runLines (indicator : String) : Nat → List String → State → Outcome
  | _, [], state => .reached state
  | number, line :: following, state =>
    match run number (Move.ofLine indicator line following) state with
    | .reached next => runLines indicator (number + 1) following next
    | .refused error last => .refused error last

end SolverLog.Builder
