/-!
# Searching a text
-/

namespace SolverLog.Text

/-- Whether a text occurs within another one. The empty text occurs in every text. -/
def occursIn (wanted : List Char) : List Char → Bool
  | [] => wanted.isEmpty
  | c :: rest => wanted.isPrefixOf (c :: rest) || occursIn wanted rest

end SolverLog.Text
