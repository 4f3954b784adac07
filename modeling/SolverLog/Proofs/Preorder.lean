import SolverLog.History.Walk

/-!
# The history as a plain recursion

The steps that are still to be visited make no difference to the order in which steps are visited:
each step comes right before all that are within it.

* `preorder_eq` — the steps visited from a step on.
* `points_eq` — the history of a field is what these steps have of it.
-/

namespace SolverLog.History

theorem entriesCount_lt_itemsCount {items : List Dict} {item : Dict} (h : item ∈ items) :
    Dict.entriesCount item < Dict.itemsCount items := by
  induction items with
  | nil => simp at h
  | cons first rest ih =>
      rw [Dict.itemsCount]
      rcases List.mem_cons.mp h with rfl | hrest
      · omega
      · have hlt := ih hrest
        omega

/-- The steps visited from a step on: the step itself, and then those visited from each step within
it. -/
def preorder (step : Dict) : List Dict :=
  step :: (nestedSteps step).attach.flatMap fun nested => preorder nested.1
termination_by Dict.entriesCount step
decreasing_by
  have hlt := entriesCount_lt_itemsCount nested.2
  have hle := itemsCount_nestedSteps_le step
  omega

theorem preorder_eq (step : Dict) :
    preorder step = step :: (nestedSteps step).flatMap preorder := by
  rw [preorder, List.flatMap_subtype (g := preorder) (fun _ _ => rfl), List.unattach_attach]

/-- The steps that are to be visited are visited one after the other, each with all within it. -/
theorem visit_eq (query : Query) (pending : List Dict) (found : Array Point) :
    (visit query pending found).toList =
      found.toList ++ (pending.flatMap preorder).filterMap query.point? := by
  induction pending, found using visit.induct query with
  | case1 found => simp [visit]
  | case2 step pending found ih =>
      -- The steps within a step are put in front, so they come before all that waited.
      have hpoint : (step :: (nestedSteps step).flatMap preorder ++
            pending.flatMap preorder).filterMap query.point? =
          (query.point? step).toList ++
            ((nestedSteps step ++ pending).flatMap preorder).filterMap query.point? := by
        rw [List.cons_append, List.filterMap_cons, ← List.flatMap_append]
        cases query.point? step <;> rfl
      rw [visit, ih, List.flatMap_cons, preorder_eq, hpoint, Array.toList_appendList, List.append_assoc]

/-- The history of a field is what the visited steps have of it. -/
theorem points_eq (query : Query) (steps : List Dict) :
    points query steps = (steps.flatMap preorder).filterMap query.point? := by
  rw [points, visit_eq]
  rfl

end SolverLog.History
