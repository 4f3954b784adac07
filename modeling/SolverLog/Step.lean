/-!
# The keys of steps

A step is a dictionary with some keys of a fixed meaning. The steps that began within a step stand
in lists in it, those of each time level in a list of their own.
-/

namespace SolverLog.Step

/-- The key of the time level of a step. -/
def levelKey : String := "level"

/-- The key of the status of a step. -/
def statusKey : String := "status"

/-- The key of the steps that began within a section, outside of fast steps. -/
def evolveKey : String := "evolve"

/-- The start of the keys of the steps of one time level. -/
def timeLevelStem : String := "time-level-"

/-- The key of the steps of a time level. -/
def timeLevelKey (level : Nat) : String :=
  timeLevelStem ++ Nat.repr level

end SolverLog.Step
