import SolverLog.Step
import SolverLog.Text.Search
import SolverLog.Tree

/-!
# Queries for the history of a field

A query names a field and says which steps count. A step counts if it passes every test of the
query; a step without the field that a test is on, or with a value of another kind there, does not
pass it.
-/

namespace SolverLog.History

open Number

/-- What to collect, and from which steps. -/
structure Query where
  /-- The field to collect. -/
  key : String
  /-- A text that the status has to contain. -/
  status : Option String := none
  /-- The first and the last time. -/
  time : Option (Binary64 × Binary64) := none
  /-- The first and the last number of a step. -/
  steps : Option (Int × Int) := none
  /-- The time level. -/
  level : Option Int := none
  /-- The field that holds the number of a step. -/
  stepKey : String := "step"
  /-- The field that holds the time of a step. -/
  timeKey : String := "tn"
deriving DecidableEq

/-- One value of a field, with the step that it belongs to. -/
structure Point where
  /-- The number of the step, if it is an integer. -/
  step : Option Int
  /-- The time of the step, if it is a number. -/
  time : Option Binary64
  /-- The time level of the step, or 0 if it is not an integer. -/
  level : Int
  value : Value
deriving DecidableEq

/-- The integer that a step holds at a key. -/
def integerAt? (step : Dict) (key : String) : Option Int :=
  (step.field? key).bind Value.integer?

/-- The number that a step holds at a key. -/
def realAt? (step : Dict) (key : String) : Option Binary64 :=
  (step.field? key).bind Value.real?

/-- The text that a step holds at a key. -/
def textAt? (step : Dict) (key : String) : Option String :=
  (step.field? key).bind Value.text?

namespace Query

/-- Whether the status contains the wanted text. -/
def acceptsStatus (query : Query) (step : Dict) : Bool :=
  query.status.all fun wanted =>
    (textAt? step Step.statusKey).any fun status => Text.occursIn wanted.toList status.toList

/-- Whether the time is in range, both ends included. -/
def acceptsTime (query : Query) (step : Dict) : Bool :=
  query.time.all fun (first, last) =>
    (realAt? step query.timeKey).any fun time => first.le time && time.le last

/-- Whether the number of the step is in range, both ends included. -/
def acceptsNumber (query : Query) (step : Dict) : Bool :=
  query.steps.all fun (first, last) =>
    (integerAt? step query.stepKey).any fun number => first ≤ number && number ≤ last

/-- Whether the step is of the wanted time level. -/
def acceptsLevel (query : Query) (step : Dict) : Bool :=
  query.level.all fun wanted => (integerAt? step Step.levelKey).any fun level => level = wanted

/-- Whether a step counts. -/
def accepts (query : Query) (step : Dict) : Bool :=
  query.acceptsStatus step && query.acceptsTime step && query.acceptsNumber step &&
    query.acceptsLevel step

/-- The point of a step: there is one if the step holds the field and counts. -/
def point? (query : Query) (step : Dict) : Option Point :=
  match step.field? query.key with
  | some value =>
    if query.accepts step then
      some
        { step := integerAt? step query.stepKey
          time := realAt? step query.timeKey
          level := (integerAt? step Step.levelKey).getD 0
          value := value }
    else none
  | none => none

end Query

end SolverLog.History
