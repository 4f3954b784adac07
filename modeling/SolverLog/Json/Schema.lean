import SolverLog.History.Query
import SolverLog.Json.Text
import SolverLog.Record

/-!
# How documents, records and histories are written in JSON

A value is written without a tag for its kind: an integer and a finite number as a number, a text
as a string, an array as a list. A number that is not finite is written as its displayed text,
except for the time of a point, which is then null, as when it is missing. Dictionaries are objects
with their keys in order.
-/

namespace SolverLog

open Number

mutual

/-- A value in JSON. -/
def Value.toJson : Value → Json
  | .integer value => .integer value
  | .real (.finite negative magnitude) => .number negative magnitude
  | .real value => .text (Value.displayStyle.text value)
  | .text words => .text words
  | .array items => .list (Value.itemsToJson items)

/-- A list of values in JSON. -/
def Value.itemsToJson : List Value → List Json
  | [] => []
  | item :: rest => Value.toJson item :: Value.itemsToJson rest

end

mutual

/-- A node in JSON. -/
def Node.toJson : Node → Json
  | .value held => held.toJson
  | .dict entries => .object (Node.entriesToJson entries)
  | .list items => .list (Node.itemsToJson items)

/-- The entries of a dictionary in JSON. -/
def Node.entriesToJson : List (String × Node) → List (String × Json)
  | [] => []
  | (key, node) :: rest => (key, Node.toJson node) :: Node.entriesToJson rest

/-- A list of dictionaries in JSON. -/
def Node.itemsToJson : List (List (String × Node)) → List Json
  | [] => []
  | entries :: rest => .object (Node.entriesToJson entries) :: Node.itemsToJson rest

end

/-- A dictionary in JSON. -/
def Dict.toJson (dict : Dict) : Json :=
  .object (Node.entriesToJson dict)

/-- The steps of a document in JSON. -/
def Document.stepsToJson (document : Document) : Json :=
  .list (Node.itemsToJson document.steps)

/-- A document in JSON. -/
def Document.toJson (document : Document) : Json :=
  .object [("globals", Dict.toJson document.globals), ("steps", document.stepsToJson)]

/-- A record in JSON. -/
def Record.toJson (record : Record) : Json :=
  .object
    [("loglvl", .text record.level), ("rank", .integer record.rank), ("scope", .text record.scope),
      ("label", .text record.label),
      ("payload", .object (record.payload.map fun (key, value) => (key, value.toJson)))]

namespace History

/-- The time of a point in JSON. -/
def timeToJson : Option Binary64 → Json
  | some (.finite negative magnitude) => .number negative magnitude
  | _ => .null

/-- A point in JSON. -/
def Point.toJson (point : Point) : Json :=
  .object
    [("step", (point.step.map Json.integer).getD .null), ("time", timeToJson point.time),
      ("level", .integer point.level), ("value", point.value.toJson)]

/-- A history in JSON. -/
def toJson (points : List Point) : Json :=
  .list (points.map Point.toJson)

end History

end SolverLog
