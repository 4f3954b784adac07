import SolverLog.History.Query

/-!
# The history of a field

The steps of a document are visited in the order in which they began: each step is followed by the
steps of the time levels within it, list by list. `points` keeps the steps that are still to be
visited in a list, the next one first, and puts the steps within a step in front of it. That ends,
because a step holds more dictionaries than its nested steps together
(`itemsCount_nestedSteps_le`).
-/

namespace SolverLog

mutual

/-- The number of dictionaries in a node. -/
def Node.dictCount : Node → Nat
  | .value _ => 0
  | .dict entries => Dict.entriesCount entries + 1
  | .list items => Dict.itemsCount items

/-- The number of dictionaries in the nodes of a dictionary. -/
def Dict.entriesCount : List (String × Node) → Nat
  | [] => 0
  | (_, node) :: rest => Node.dictCount node + Dict.entriesCount rest

/-- The number of dictionaries in a list of dictionaries, these included. -/
def Dict.itemsCount : List (List (String × Node)) → Nat
  | [] => 0
  | item :: rest => Dict.entriesCount item + 1 + Dict.itemsCount rest

end

theorem Dict.itemsCount_append (items more : List Dict) :
    Dict.itemsCount (items ++ more) = Dict.itemsCount items + Dict.itemsCount more := by
  induction items with
  | nil => simp [Dict.itemsCount]
  | cons item rest ih =>
    simp only [List.cons_append, Dict.itemsCount, ih]
    omega

namespace History

/-- Whether a key is that of a list of nested steps. -/
def isTimeLevelKey (key : String) : Bool :=
  Step.timeLevelStem.toList.isPrefixOf key.toList

/-- The steps within an entry of a step. -/
def stepsWithin (entry : String × Node) : List Dict :=
  if isTimeLevelKey entry.1 then entry.2.items else []

/-- The steps right within a step, in order. -/
def nestedSteps (step : Dict) : List Dict :=
  step.flatMap stepsWithin

theorem itemsCount_stepsWithin_le (entry : String × Node) :
    Dict.itemsCount (stepsWithin entry) ≤ Node.dictCount entry.2 := by
  obtain ⟨key, node⟩ := entry
  unfold stepsWithin
  split
  · cases node <;> simp [Node.items, Dict.itemsCount, Node.dictCount]
  · simp [Dict.itemsCount]

theorem itemsCount_nestedSteps_le (step : Dict) :
    Dict.itemsCount (nestedSteps step) ≤ Dict.entriesCount step := by
  induction step with
  | nil => simp [nestedSteps, Dict.itemsCount]
  | cons entry rest ih =>
    have hentry := itemsCount_stepsWithin_le entry
    simp only [nestedSteps] at ih
    simp only [nestedSteps, List.flatMap_cons, Dict.itemsCount_append, Dict.entriesCount]
    omega

/-- The points of the steps that are to be visited, after the points found so far. -/
def visit (query : Query) : List Dict → Array Point → Array Point
  | [], found => found
  | step :: pending, found =>
    visit query (nestedSteps step ++ pending) (found ++ (query.point? step).toList)
termination_by pending => Dict.itemsCount pending
decreasing_by
  rw [Dict.itemsCount_append, Dict.itemsCount]
  have := itemsCount_nestedSteps_le step
  omega

/-- The history of a field over the steps of a document. -/
def points (query : Query) (steps : List Dict) : List Point :=
  (visit query steps #[]).toList

end History

end SolverLog
