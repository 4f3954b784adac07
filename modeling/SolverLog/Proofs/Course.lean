import SolverLog.History.Walk
import SolverLog.Marker
import SolverLog.Record

/-!
# The course of the steps of a log

The history visits a step and then the lists of fast steps in it, list by list, in the order in which
the log first set their keys. So it visits the steps as they begin unless the log goes back: a fast
step begins in a list, and one of the lists after that has a step already. `Course` finds that out
from the labels alone.

Steps that are not within a top-level step by such lists are not visited, and do not count.
-/

namespace SolverLog

/-- An open section, as far as the course of the steps goes. -/
inductive Spot where
  /-- It is no step. -/
  | aside
  /-- It is a step that is not visited. -/
  | hidden
  /-- It is a step that is visited. The keys of its lists of fast steps are there in order, with
  whether a step is in the list. -/
  | visited (lists : Entries Bool)
deriving DecidableEq

/-- Whether no step is in a list after that of a key. -/
def isLastList : Entries Bool → String → Bool
  | [], _ => true
  | (other, _) :: rest, key =>
    if other = key then rest.all fun entry => !entry.2 else isLastList rest key

/-- The course of the steps so far. -/
structure Course where
  /-- The open sections, innermost first. -/
  stack : List Spot
  /-- How many regions of fast steps are open. -/
  fastSteps : Nat
  /-- Whether no fast step has gone back to a list before another one with steps. -/
  forward : Bool
deriving DecidableEq

namespace Course

/-- The course before the first record. -/
def empty : Course where
  stack := []
  fastSteps := 0
  forward := true

/-- The innermost open step. -/
def host? : List Spot → Option Spot
  | [] => none
  | .aside :: outer => host? outer
  | .hidden :: _ => some .hidden
  | .visited lists :: _ => some (.visited lists)

/-- Changes the lists of the innermost open step. -/
def changeHost (change : Entries Bool → Entries Bool) : List Spot → List Spot
  | [] => []
  | .aside :: outer => .aside :: changeHost change outer
  | .hidden :: outer => .hidden :: outer
  | .visited lists :: outer => .visited (change lists) :: outer

/-- A list entry begins. Its list is there from then on, if it is one of fast steps. -/
def enterEntry (course : Course) (list : String) : Course :=
  match course.stack with
  | .visited lists :: outer =>
    if History.isTimeLevelKey list then
      let lists := lists.put list ((lists.value? list).getD false)
      { course with stack := .aside :: .visited lists :: outer }
    else { course with stack := .aside :: course.stack }
  | _ => { course with stack := .aside :: course.stack }

/-- A step begins. -/
def enterStep (course : Course) : Course :=
  if course.stack.isEmpty then { course with stack := [.visited []] }
  else if course.fastSteps = 0 then { course with stack := .hidden :: course.stack }
  else
    match host? course.stack with
    | some (.visited lists) =>
      let key := Step.timeLevelKey course.fastSteps
      { course with
        stack := .visited [] :: changeHost (·.put key true) course.stack
        forward := course.forward && isLastList lists key }
    | _ => { course with stack := .hidden :: course.stack }

/-- A section begins. -/
def enter (course : Course) : Section → Course
  | .plain _ => { course with stack := .aside :: course.stack }
  | .entry list => course.enterEntry list
  | .step => course.enterStep

/-- A record is read. -/
def read (course : Course) (record : Record) : Course :=
  match Marker.ofLabel record.label with
  | .remark => course
  | .opens opened => course.enter opened
  | .closes _ => { course with stack := course.stack.tail }
  | .beginsFastSteps => { course with fastSteps := course.fastSteps + 1 }
  | .endsFastSteps => { course with fastSteps := course.fastSteps - 1 }

/-- The course of the steps that records begin. -/
def ofRecords (records : List Record) : Course :=
  records.foldl read empty

end Course

end SolverLog
