/-!
# Lines of a text

A line ends at a line feed, and a carriage return right before that line feed belongs to the
line break. What follows the last line feed is a line only if it is not empty, and it keeps a
carriage return at its end, since no line feed closes it.
-/

namespace SolverLog.Text

/-- The line without the carriage return that belongs to its line break. -/
def withoutCarriageReturn (line : List Char) : List Char :=
  if line.getLast? = some '\r' then line.dropLast else line

/-- Reads the pieces between line feeds as lines: all but the last were closed by one. -/
def closeLines : List (List Char) → List (List Char)
  | [] => []
  | [last] => if last = [] then [] else [last]
  | line :: next :: rest => withoutCarriageReturn line :: closeLines (next :: rest)

/-- The lines of a text, without their line breaks. -/
def lines (text : String) : List String :=
  (closeLines (text.toList.splitOn '\n')).map String.ofList

end SolverLog.Text
