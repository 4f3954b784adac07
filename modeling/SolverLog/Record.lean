import SolverLog.Payload

/-!
# Records

A record is a record line with its payload decoded.
-/

namespace SolverLog

/-- A record line of a log, decoded. -/
structure Record where
  level : String
  rank : Int
  scope : String
  label : String
  payload : Payload
deriving DecidableEq

/-- Reads a line that the lines `following` follow; commentary is no record. -/
def Record.read? (indicator line : String) (following : List String) : Option Record :=
  (Header.read? line).map fun header =>
    { level := header.level
      rank := header.rank
      scope := header.scope
      label := header.label
      payload := Payload.decode indicator following header.payload }

end SolverLog
