import SolverLog.History.Query

/-!
# The history of a field as a table

A table has a line of headings and one line for each point. Its columns are the step, the time and
the level, set to the right in at least 8, 24 and 5 characters, and the value, as it is displayed.
A step or a time that is missing is a dash.
-/

namespace SolverLog.History

open Number

/-- The style of times in tables: always with an exponent, without a plus sign. -/
def timeStyle : Style where
  least := 0
  greatest := -1
  plus := false
  tie := .up

example : (Binary64.read? "0".toList).map timeStyle.text = some "0e0" := by decide +kernel
example : (Binary64.read? "-1200".toList).map timeStyle.text = some "-1.2e3" := by decide +kernel

/-- Fills a text up with spaces from the left. -/
def alignRight (width : Nat) (text : String) : String :=
  String.ofList (text.toList.leftpad width ' ')

/-- One line of a table, with its line feed. -/
def tableLine (step time level value : String) : String :=
  alignRight 8 step ++ " " ++ alignRight 24 time ++ " " ++ alignRight 5 level ++ "  " ++ value ++
    "\n"

/-- The mark of what is missing. -/
def missing : String := "-"

/-- The line of a point. -/
def Point.tableLine (point : Point) : String :=
  History.tableLine ((point.step.map integerText).getD missing)
    ((point.time.map timeStyle.text).getD missing) (integerText point.level) point.value.display

/-- The table of a field. -/
def table (key : String) (points : List Point) : String :=
  tableLine "step" "time" "level" key ++ String.join (points.map Point.tableLine)

end SolverLog.History
