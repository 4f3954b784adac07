/-!
# Structure errors

A log whose sections do not nest, or whose fields collide, has no document. Lines are counted from
one.
-/

namespace SolverLog

/-- Why a log has no document. -/
inductive StructureError where
  /-- A key is set that the innermost open section has already. -/
  | duplicateKey (line : Nat) (key place : String)
  /-- A section is closed while another one is the innermost open section. -/
  | mismatchedEnd (line : Nat) (found expected : String)
  /-- A section is closed while none is open. -/
  | unexpectedEnd (line : Nat) (found : String)
  /-- A region of fast steps is closed while none is open. -/
  | unbalancedFastSteps (line : Nat)
  /-- A section is open at the end of a log that has to close all its sections. -/
  | unclosedSection (line : Nat) (name : String)
deriving DecidableEq, Repr

namespace StructureError

/-- The message for the user. -/
def message : StructureError → String
  | duplicateKey line key place =>
    "line " ++ Nat.repr line ++ ": key `" ++ key ++ "` is already set in `" ++ place ++ "`"
  | mismatchedEnd line found expected =>
    "line " ++ Nat.repr line ++ ": `end-" ++ found ++ "` does not close the open section `" ++
      expected ++ "`"
  | unexpectedEnd line found =>
    "line " ++ Nat.repr line ++ ": `end-" ++ found ++ "` with no open section"
  | unbalancedFastSteps line =>
    "line " ++ Nat.repr line ++ ": `end-fast-steps` without a matching `begin-fast-steps`"
  | unclosedSection line name =>
    "section `" ++ name ++ "` opened on line " ++ Nat.repr line ++ " is never closed"

end StructureError

end SolverLog
