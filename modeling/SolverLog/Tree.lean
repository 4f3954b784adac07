import SolverLog.Entries
import SolverLog.Value

/-!
# Dictionaries and documents

A dictionary holds, at each key, a value, another dictionary, or a list of dictionaries. A document
is what is recovered from one log: the steps, in the order in which they began, and the fields
that were logged outside of any step.
-/

namespace SolverLog

/-- What a dictionary holds at a key. -/
inductive Node where
  | value (held : Value)
  | dict (entries : List (String × Node))
  | list (items : List (List (String × Node)))

/-- Keys with nodes, in the order in which the keys were first set. -/
abbrev Dict := Entries Node

namespace Node

mutual

/-- Decides whether two nodes are one. -/
def decEq : (a b : Node) → Decidable (a = b)
  | value v, value w => if h : v = w then .isTrue (by rw [h]) else .isFalse (by simp [h])
  | value _, dict _ => .isFalse (by simp)
  | value _, list _ => .isFalse (by simp)
  | dict d, dict e =>
    match decEqEntries d e with
    | .isTrue h => .isTrue (by rw [h])
    | .isFalse h => .isFalse (by simp [h])
  | dict _, value _ => .isFalse (by simp)
  | dict _, list _ => .isFalse (by simp)
  | list ds, list es =>
    match decEqItems ds es with
    | .isTrue h => .isTrue (by rw [h])
    | .isFalse h => .isFalse (by simp [h])
  | list _, value _ => .isFalse (by simp)
  | list _, dict _ => .isFalse (by simp)

/-- Decides whether the entries of two dictionaries are the same. -/
def decEqEntries : (d e : List (String × Node)) → Decidable (d = e)
  | [], [] => .isTrue rfl
  | [], _ :: _ => .isFalse (by simp)
  | _ :: _, [] => .isFalse (by simp)
  | (j, a) :: d, (k, b) :: e =>
    if hkey : j = k then
      match decEq a b with
      | .isTrue hnode =>
        match decEqEntries d e with
        | .isTrue hrest => .isTrue (by rw [hkey, hnode, hrest])
        | .isFalse hrest => .isFalse (by simp [hrest])
      | .isFalse hnode => .isFalse (by simp [hnode])
    else .isFalse (by simp [hkey])

/-- Decides whether two lists of dictionaries are one. -/
def decEqItems : (ds es : List (List (String × Node))) → Decidable (ds = es)
  | [], [] => .isTrue rfl
  | [], _ :: _ => .isFalse (by simp)
  | _ :: _, [] => .isFalse (by simp)
  | d :: ds, e :: es =>
    match decEqEntries d e with
    | .isTrue hd =>
      match decEqItems ds es with
      | .isTrue hds => .isTrue (by rw [hd, hds])
      | .isFalse hds => .isFalse (by simp [hds])
    | .isFalse hd => .isFalse (by simp [hd])

end

instance : DecidableEq Node := decEq

/-- The value that a node is. -/
def value? : Node → Option Value
  | value held => some held
  | _ => none

/-- The dictionaries of the list that a node is; none for any other node. -/
def items : Node → List Dict
  | list dicts => dicts
  | _ => []

end Node

namespace Dict

/-- The value at a key, if there is one and not a dictionary or a list. -/
def field? (dict : Dict) (key : String) : Option Value :=
  (dict.value? key).bind Node.value?

end Dict

/-- What is recovered from one log. -/
structure Document where
  /-- The fields logged outside of any step. -/
  globals : Dict
  /-- The steps that began outside of any section. -/
  steps : List Dict
deriving DecidableEq

end SolverLog
