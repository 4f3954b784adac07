import SolverLog.Entries
import SolverLog.Header
import SolverLog.Value

/-!
# Payloads

A payload is a list of fields with commas between them. A field is a key, and after the first
equals sign its text; blanks around either do not count, and a field with neither is no field.

* The value of a key that ends with the array indicator is an array: the lines that follow the
  record line, up to a blank line or the next record line, each read as a literal.
* The value of any other key is its text, read as a literal.
* A key that occurs again keeps its place and takes the later value.
-/

namespace SolverLog

/-- The fields of a record line, decoded. -/
abbrev Payload := Entries Value

namespace Payload

/-- The array indicator that logs use unless they say otherwise. -/
def defaultIndicator : String := "(:)"

/-- The key and the text of one field, without the blanks around them. -/
def splitField (field : List Char) : List Char × List Char :=
  (Text.trim (field.takeWhile (· ≠ '=')), Text.trim ((field.dropWhile (· ≠ '=')).drop 1))

/-- The keys and texts of a payload, in order. -/
def fields (payload : String) : List (List Char × List Char) :=
  ((payload.toList.splitOn ',').map splitField).filter (· ≠ ([], []))

/-- Whether a key takes its value from the lines that follow. The empty indicator marks no key. -/
def isArrayKey (indicator : String) (key : List Char) : Bool :=
  indicator ≠ "" && indicator.toList.isSuffixOf key

/-- Whether a line can belong to an array: it is neither blank nor a record line. -/
def isArrayLine (line : String) : Bool :=
  !(Text.trim line.toList).isEmpty && !isRecordLine line

/-- The array that stands on the lines that follow a record line. -/
def arrayOf (following : List String) : Value :=
  .array ((following.takeWhile isArrayLine).map Value.ofLiteral)

/-- The value of a field. -/
def valueOf (indicator : String) (following : List String) (key text : List Char) : Value :=
  if isArrayKey indicator key then arrayOf following else Value.ofLiteral (String.ofList text)

/-- Decodes the payload of a record line that the lines `following` follow. -/
def decode (indicator : String) (following : List String) (payload : String) : Payload :=
  Entries.putAll [] <| (fields payload).map fun (key, text) =>
    (String.ofList key, valueOf indicator following key text)

end Payload

end SolverLog
