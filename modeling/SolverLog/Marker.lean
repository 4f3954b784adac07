/-!
# Sections and the labels that mark them

A label `begin-NAME` opens a section, and `end-NAME` closes it. The name tells which of three kinds
of section it is: a step attempt, an entry of a list (`LIST-list`), or a plain section. The name
`fast-steps` opens and closes no section but a region of fast steps, and every other label marks
nothing.
-/

namespace SolverLog

/-- A section of a log. -/
inductive Section where
  /-- A section with a dictionary of its own under its name. -/
  | plain (name : String)
  /-- An entry of the list of that name. -/
  | entry (list : String)
  /-- An attempt of a time step. -/
  | step
deriving DecidableEq, Repr

namespace Section

/-- The name of a step attempt. -/
def stepName : String := "step-attempt"

/-- The end of the name of a list entry. -/
def listSuffix : String := "-list"

/-- The name of a section, as its labels have it. -/
def name : Section → String
  | plain name => name
  | entry list => list ++ listSuffix
  | step => stepName

/-- The section of that name. The suffix of list entries alone is a plain name. -/
def ofName (name : List Char) : Section :=
  if name = stepName.toList then step
  else
    match listSuffix.toList.isSuffixOf? name with
    | none | some [] => plain (String.ofList name)
    | some list => entry (String.ofList list)

end Section

/-- What a label marks. -/
inductive Marker where
  /-- Nothing: the record only adds its fields. -/
  | remark
  | opens (opened : Section)
  | closes (closed : Section)
  | beginsFastSteps
  | endsFastSteps
deriving DecidableEq, Repr

namespace Marker

/-- The name of a region of fast steps. -/
def fastStepsName : String := "fast-steps"

/-- What a label marks, given the name after `begin-`. -/
def ofOpening (name : List Char) : Marker :=
  if name = [] then remark
  else if name = fastStepsName.toList then beginsFastSteps
  else opens (Section.ofName name)

/-- What a label marks, given the name after `end-`. -/
def ofClosing (name : List Char) : Marker :=
  if name = [] then remark
  else if name = fastStepsName.toList then endsFastSteps
  else closes (Section.ofName name)

/-- What a label marks. -/
def ofLabel (label : String) : Marker :=
  match "begin-".toList.isPrefixOf? label.toList, "end-".toList.isPrefixOf? label.toList with
  | some name, _ => ofOpening name
  | none, some name => ofClosing name
  | none, none => remark

end Marker

end SolverLog
