import SolverLog.Number.Decimal
import SolverLog.Number.Style

/-!
# JSON texts

`Json` is a value of JSON whose numbers are integers or finite binary64 numbers, and whose objects
keep the order of their members. Its text is a list of pieces, each a bracket, a comma, a colon, a
scalar, or the space between them, as `Spacing` has it: none at all in a compact text, a line and
its indentation for every item in an indented one.
-/

namespace SolverLog

open Number

/-- A value of JSON. -/
inductive Json where
  | null
  | integer (value : Int)
  | number (negative : Bool) (magnitude : Magnitude)
  | text (words : String)
  | list (items : List Json)
  | object (members : List (String × Json))

namespace Json

/-- The style of numbers in JSON: positional from 0.00001 up to below 10^16, and a plus sign in
exponents that are not negative. -/
def numberStyle : Style where
  least := -5
  greatest := 15
  plus := true
  tie := .even

/-! Where the positional form ends, and a number with two nearest texts. -/

example : (Binary64.read? "1e-5".toList).map numberStyle.text = some "0.00001" := by decide +kernel
example : (Binary64.read? "1e-6".toList).map numberStyle.text = some "1e-6" := by decide +kernel
example : (Binary64.read? "1e16".toList).map numberStyle.text = some "1e+16" := by decide +kernel
example :
    (Binary64.read? "2.98023223876953125e-8".toList).map numberStyle.text =
      some "2.9802322387695312e-8" := by
  decide +kernel

/-- A character as it stands in a string. -/
def escape (c : Char) : List Char :=
  if c = '"' then ['\\', '"']
  else if c = '\\' then ['\\', '\\']
  else if c = '\x08' then ['\\', 'b']
  else if c = '\x0c' then ['\\', 'f']
  else if c = '\n' then ['\\', 'n']
  else if c = '\r' then ['\\', 'r']
  else if c = '\t' then ['\\', 't']
  else if c.toNat < 0x20 then
    ['\\', 'u', '0', '0', Nat.digitChar (c.toNat / 16), Nat.digitChar (c.toNat % 16)]
  else [c]

/-- A string in quotes. -/
def quote (text : String) : String :=
  String.ofList ('"' :: text.toList.flatMap escape ++ ['"'])

/-- The space between the pieces of a text. -/
structure Spacing where
  /-- What stands before an item, or before a closing bracket, at that depth. -/
  lineBreak : Nat → String
  /-- What stands between a key and its value. -/
  colon : String

namespace Spacing

/-- No space. -/
def compact : Spacing where
  lineBreak _ := ""
  colon := ":"

/-- A line for each item, indented by two spaces for each level, and a space after each colon. -/
def indented : Spacing where
  lineBreak depth := String.ofList ('\n' :: List.replicate (2 * depth) ' ')
  colon := ": "

end Spacing

mutual

/-- The pieces of the text of a value that stands at that depth. -/
def pieces (spacing : Spacing) (depth : Nat) : Json → List String
  | null => ["null"]
  | integer value => [integerText value]
  | number negative magnitude => [numberStyle.finiteText negative magnitude]
  | text words => [quote words]
  | list [] => ["[", "]"]
  | list (item :: rest) =>
    "[" :: spacing.lineBreak (depth + 1) :: pieces spacing (depth + 1) item ++
      (itemPieces spacing (depth + 1) rest ++ [spacing.lineBreak depth, "]"])
  | object [] => ["\x7b", "\x7d"]
  | object ((key, value) :: rest) =>
    "\x7b" :: spacing.lineBreak (depth + 1) :: quote key :: spacing.colon ::
      pieces spacing (depth + 1) value ++
        (memberPieces spacing (depth + 1) rest ++ [spacing.lineBreak depth, "\x7d"])

/-- The pieces of the items after the first. -/
def itemPieces (spacing : Spacing) (depth : Nat) : List Json → List String
  | [] => []
  | item :: rest =>
    "," :: spacing.lineBreak depth :: pieces spacing depth item ++ itemPieces spacing depth rest

/-- The pieces of the members after the first. -/
def memberPieces (spacing : Spacing) (depth : Nat) : List (String × Json) → List String
  | [] => []
  | (key, value) :: rest =>
    "," :: spacing.lineBreak depth :: quote key :: spacing.colon :: pieces spacing depth value ++
      memberPieces spacing depth rest

end

/-- The text of a value in that spacing. -/
def render (spacing : Spacing) (json : Json) : String :=
  String.join (json.pieces spacing 0)

/-- The text of a value without space. -/
def compact (json : Json) : String :=
  json.render .compact

/-- The text of a value with a line for each item. -/
def indented (json : Json) : String :=
  json.render .indented

end Json

end SolverLog
