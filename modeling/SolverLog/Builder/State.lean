import SolverLog.Marker
import SolverLog.Step
import SolverLog.Tree

/-!
# The state of a document under construction

While a log is read its dictionaries stand side by side in a store, and one holds another by its
number (`Slot`). Dictionary 0 holds the globals, and a dictionary always has a greater number than
the one that holds it. A `Frame` is a section that is open; the innermost comes first.

`State.place` says where the dictionary of a section stands, `State.vacancy` whether there is room
for a new one, and `State.addAt` puts it there.
-/

namespace SolverLog.Builder

/-- What a dictionary under construction holds at a key. -/
inductive Slot where
  | value (held : Value)
  | dict (number : Nat)
  | list (numbers : List Nat)
deriving DecidableEq

/-- A section that is open. -/
structure Frame where
  /-- The number of the dictionary of the section. -/
  dict : Nat
  opened : Section
  /-- One more than the depth of the section around it. -/
  depth : Nat
  /-- The line that opened the section. -/
  line : Nat
deriving DecidableEq

/-- A document under construction. -/
structure State where
  /-- The dictionaries, by number. -/
  dicts : Array (Entries Slot)
  /-- The numbers of the dictionaries of the top-level steps, in order. -/
  steps : Array Nat
  /-- The open sections, innermost first. -/
  frames : List Frame
  /-- How many regions of fast steps are open. -/
  fastSteps : Nat

/-- Where the dictionary of a section stands. -/
inductive Place where
  /-- Among the top-level steps. -/
  | topLevel
  /-- At a key of a dictionary. -/
  | member (parent : Nat) (key : String)
  /-- At the end of the list at a key of a dictionary. -/
  | element (parent : Nat) (key : String)
deriving DecidableEq, Repr

/-- What there is at a place for the dictionary of a section. -/
inductive Vacancy where
  /-- Room for a new dictionary. -/
  | free
  /-- A dictionary that is used again. -/
  | held (number : Nat)
  /-- Something else. -/
  | blocked
deriving DecidableEq, Repr

/-- The number of the dictionary of the globals. -/
def globalsNumber : Nat := 0

namespace State

/-- The state before the first line. -/
def initial : State where
  dicts := #[[]]
  steps := #[]
  frames := []
  fastSteps := 0

/-- The entries of a dictionary. -/
def entries (state : State) (number : Nat) : Entries Slot :=
  state.dicts.getD number []

/-- The dictionary of the innermost open section, or the globals. -/
def current (state : State) : Nat :=
  match state.frames with
  | [] => globalsNumber
  | frame :: _ => frame.dict

/-- The depth of the innermost open section; 0 if none is open. -/
def depth (state : State) : Nat :=
  match state.frames with
  | [] => 0
  | frame :: _ => frame.depth

/-- The dictionary of the innermost open step, or the current one if no step is open. -/
def host (state : State) : Nat :=
  match state.frames.find? (·.opened = .step) with
  | some frame => frame.dict
  | none => state.current

/-- The names of the open sections from the outermost to the innermost. -/
def path (state : State) : String :=
  match state.frames with
  | [] => "<root>"
  | frames => "/".intercalate (frames.reverse.map (·.opened.name))

/-- Sets a key of a dictionary. -/
def set (state : State) (number : Nat) (key : String) (slot : Slot) : State :=
  { state with dicts := state.dicts.modify number (·.put key slot) }

/-- Adds a dictionary to the store. Its number is the former size of the store. -/
def add (state : State) (entries : Entries Slot) : State :=
  { state with dicts := state.dicts.push entries }

/-- Where the dictionary of a section stands. A step stands at the top level if no section is
open, else in the list of its time level in the innermost open step; outside of fast steps, in the
list `evolve` of the current dictionary. -/
def place (state : State) : Section → Place
  | .plain name => .member state.current name
  | .entry list => .element state.current list
  | .step =>
    if state.frames = [] then .topLevel
    else if state.fastSteps = 0 then .element state.current Step.evolveKey
    else .element state.host (Step.timeLevelKey state.fastSteps)

/-- What the new dictionary of a section holds: the time level, if the section is a step. -/
def newEntries (state : State) : Section → Entries Slot
  | .step => [(Step.levelKey, .value (.integer state.fastSteps))]
  | _ => []

/-- What there is at a place. A member that is a dictionary is used again, a list takes any number
of elements, and the top level any number of steps. -/
def vacancy (state : State) : Place → Vacancy
  | .topLevel => .free
  | .member parent key =>
    match (state.entries parent).value? key with
    | none => .free
    | some (.dict number) => .held number
    | some _ => .blocked
  | .element parent key =>
    match (state.entries parent).value? key with
    | none | some (.list _) => .free
    | some _ => .blocked

/-- The numbers of the list at a key of a dictionary; none if there is no list. -/
def elements (state : State) (number : Nat) (key : String) : List Nat :=
  match (state.entries number).value? key with
  | some (.list numbers) => numbers
  | _ => []

/-- Adds a dictionary to the store and puts its number at a free place. -/
def addAt (state : State) (fresh : Entries Slot) (place : Place) : State :=
  let number := state.dicts.size
  match place with
  | .topLevel => { state with dicts := state.dicts.push fresh, steps := state.steps.push number }
  | .member parent key => (state.add fresh).set parent key (.dict number)
  | .element parent key =>
    let numbers := state.elements parent key ++ [number]
    (state.add fresh).set parent key (.list numbers)

/-- Opens a section whose dictionary has that number. -/
def enter (state : State) (line : Nat) (opened : Section) (number : Nat) : State :=
  let frame : Frame := { dict := number, opened, depth := state.depth + 1, line }
  { state with frames := frame :: state.frames }

end State

/-- The key that a place needs in the dictionary that holds it; there is none at the top level,
which has room for every step. -/
def Place.key : Place → String
  | .topLevel => ""
  | .member _ key => key
  | .element _ key => key

end SolverLog.Builder
