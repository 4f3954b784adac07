import SolverLog.Builder.State

/-!
# From the store to the document

Every dictionary of a store is put together from those with greater numbers, so the store is gone
through from its end. A dictionary that is complete waits until the one that holds it, or the list
of steps, takes it; it can be taken once, and whoever comes later finds an empty one.
-/

namespace SolverLog.Builder

/-- The dictionaries that are complete and not taken yet, by number. -/
abbrev Completed := Array (Option Dict)

/-- Takes a complete dictionary. One that is not there is taken to be empty. -/
def take (number : Nat) : StateM Completed Dict :=
  modifyGet fun completed =>
    ((completed.getD number none).getD [], completed.setIfInBounds number none)

/-- What a slot stands for. -/
def Slot.node : Slot → StateM Completed Node
  | value held => return .value held
  | dict number => return .dict (← take number)
  | list numbers => return .list (← numbers.mapM take)

/-- Completes the dictionary of that number. -/
def complete (number : Nat) (entries : Entries Slot) : StateM Completed Unit := do
  let dict ← entries.mapM fun (key, slot) => return (key, ← slot.node)
  modify (·.setIfInBounds number (some dict))

/-- Completes the dictionaries of a store with numbers below a bound, the greatest number first. -/
def completeBelow (dicts : Array (Entries Slot)) : Nat → StateM Completed Unit
  | 0 => return
  | number + 1 => do
    complete number (dicts.getD number [])
    completeBelow dicts number

/-- The document that a state stands for. Sections that are still open are kept as they are. -/
def State.document (state : State) : Document :=
  let assembly : StateM Completed Document := do
    completeBelow state.dicts state.dicts.size
    let steps ← state.steps.toList.mapM take
    let globals ← take globalsNumber
    return { globals, steps }
  (assembly.run (Array.replicate state.dicts.size none)).1

end SolverLog.Builder
