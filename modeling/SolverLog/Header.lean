import SolverLog.Number.Integer
import SolverLog.Text.Blank

/-!
# Headers of record lines

A record line starts with four groups in brackets and goes on with its payload:
`[LEVEL][rank N][SCOPE][LABEL]PAYLOAD`.

* The level is not empty and has no bracket and no blank.
* The rank is an optional minus sign and decimal digits, an integer of 64 bits.
* The scope and the label are any text without a closing bracket, line feeds included.
* The payload has no line feed.

Every other line is commentary.
-/

namespace SolverLog

/-- A record line taken apart. -/
structure Header where
  level : String
  rank : Int
  scope : String
  label : String
  payload : String
deriving DecidableEq, Repr

namespace Header

/-- The characters of a level. -/
def isLevelChar (c : Char) : Bool :=
  c ≠ '[' && c ≠ ']' && !Text.isBlank c

/-- The characters of a scope, a label and a rank. -/
def isGroupChar (c : Char) : Bool :=
  c ≠ ']'

/-- Takes a fixed text off the start of a text. -/
def expect (token : String) (text : List Char) : Option (List Char) :=
  token.toList.isPrefixOf? text

/-- Reads a rank. Unlike other integers it has no plus sign. -/
def rank? : List Char → Option Int
  | '+' :: _ => none
  | text => Number.integer? text

/-- Takes a record line apart. -/
def read? (line : String) : Option Header := do
  let text ← expect "[" line.toList
  let (level, text) := text.span isLevelChar
  let text ← expect "][rank " text
  let (rankText, text) := text.span isGroupChar
  let rank ← rank? rankText
  let text ← expect "][" text
  let (scope, text) := text.span isGroupChar
  let text ← expect "][" text
  let (label, text) := text.span isGroupChar
  let payload ← expect "]" text
  if level = [] ∨ '\n' ∈ payload then none
  else
    some
      { level := String.ofList level
        rank := rank
        scope := String.ofList scope
        label := String.ofList label
        payload := String.ofList payload }

end Header

/-- Whether a line is a record line. -/
def isRecordLine (line : String) : Bool :=
  (Header.read? line).isSome

theorem isRecordLine_of_read? {line : String} {header : Header}
    (h : Header.read? line = some header) : isRecordLine line = true := by
  rw [isRecordLine, h, Option.isSome_some]

theorem isRecordLine_eq_false_iff {line : String} :
    isRecordLine line = false ↔ Header.read? line = none := by
  rw [isRecordLine, Option.isSome_eq_false_iff, Option.isNone_iff_eq_none]

end SolverLog
