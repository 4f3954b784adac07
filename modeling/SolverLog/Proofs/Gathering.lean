import Mathlib.Data.List.Basic
import Mathlib.Logic.Function.Iterate
import SolverLog.Proofs.Preorder

/-!
# The history gathered step by step

`Query.gather` reads the points off a step by recursion over its dictionary: its own point, and then
those of the steps in its lists of time levels, in the order of the keys. The walk keeps the steps
that are still to be visited on a stack, the next one on top (`Worklist`).

* `Query.point?_eq_some_iff` — which steps have a point, and what stands in it.
* `Worklist.exists_turns` — the loop on the stack ends, with the points of the walk.
* `points_eq_gather` — these are the points that the recursion gathers.
-/

namespace SolverLog

open Number

/-! ## What a step holds -/

/-- The dictionary holds that value at the key. -/
def Dict.Holds (dict : Dict) (key : String) (value : Value) : Prop :=
  dict.value? key = some (.value value)

/-- The dictionary holds that number at the key, or the integer it is nearest to. -/
def Dict.HoldsNumber (dict : Dict) (key : String) (number : Binary64) : Prop :=
  dict.Holds key (.real number) ∨
    ∃ value : Int, dict.Holds key (.integer value) ∧ number = Binary64.ofInteger value

/-- The number is between the two on the line of numbers, both included. NaN is nowhere on it. -/
def Number.Binary64.Within (number first last : Binary64) : Prop :=
  ∃ place low high : Int, number.place? = some place ∧ first.place? = some low ∧
    last.place? = some high ∧ low ≤ place ∧ place ≤ high

namespace History

variable {query : Query} {step : Dict} {key : String}

theorem field?_eq_some_iff {value : Value} : step.field? key = some value ↔ step.Holds key value := by
  unfold Dict.field? Dict.Holds
  cases hnode : step.value? key with
  | none => simp
  | some node => cases node <;> simp [Node.value?]

/-- What a step holds at a key, as a value of some kind. -/
theorem bind_field?_eq_some_iff {α : Type} {kind : Value → Option α} {a : α} :
    (step.field? key).bind kind = some a ↔ ∃ value, step.Holds key value ∧ kind value = some a := by
  simp only [Option.bind_eq_some_iff, field?_eq_some_iff]

theorem integerAt?_eq_some_iff {number : Int} :
    integerAt? step key = some number ↔ step.Holds key (.integer number) := by
  have hkind (value : Value) : value.integer? = some number ↔ value = .integer number := by
    cases value <;> simp [Value.integer?]
  simp only [integerAt?, bind_field?_eq_some_iff, hkind, exists_eq_right]

theorem textAt?_eq_some_iff {words : String} :
    textAt? step key = some words ↔ step.Holds key (.text words) := by
  have hkind (value : Value) : value.text? = some words ↔ value = .text words := by
    cases value <;> simp [Value.text?]
  simp only [textAt?, bind_field?_eq_some_iff, hkind, exists_eq_right]

theorem realAt?_eq_some_iff {number : Binary64} :
    realAt? step key = some number ↔ step.HoldsNumber key number := by
  unfold realAt? Dict.HoldsNumber
  rw [bind_field?_eq_some_iff]
  constructor
  · rintro ⟨value, hholds, hvalue⟩
    cases value with
    | integer value => exact .inr ⟨value, hholds, (Option.some.inj hvalue).symm⟩
    | real value => exact .inl (Option.some.inj hvalue ▸ hholds)
    | text words => cases hvalue
    | array items => cases hvalue
  · rintro (hholds | ⟨value, hholds, hnumber⟩)
    · exact ⟨.real number, hholds, by rw [Value.real?]⟩
    · exact ⟨.integer value, hholds, by rw [Value.real?, hnumber]⟩

theorem within_iff {number first last : Binary64} :
    (first.le number && number.le last) = true ↔ number.Within first last := by
  unfold Binary64.le Binary64.Within
  cases number.place? <;> cases first.place? <;> cases last.place? <;> simp

theorem occursIn_iff {wanted text : List Char} : Text.occursIn wanted text = true ↔ wanted <:+: text := by
  induction text with
  | nil => rw [Text.occursIn, List.isEmpty_iff, List.infix_nil]
  | cons c rest ih =>
      rw [Text.occursIn, Bool.or_eq_true, List.isPrefixOf_iff_prefix, ih, List.infix_cons_iff]

/-! ## The points of steps -/

namespace Query

/-- The step passes every test of the query. -/
structure Admits (query : Query) (step : Dict) : Prop where
  status : ∀ wanted ∈ query.status, ∃ status : String,
    step.Holds "status" (.text status) ∧ wanted.toList <:+: status.toList
  time : ∀ range ∈ query.time, ∃ time : Binary64,
    step.HoldsNumber query.timeKey time ∧ time.Within range.1 range.2
  number : ∀ range ∈ query.steps, ∃ number : Int,
    step.Holds query.stepKey (.integer number) ∧ range.1 ≤ number ∧ number ≤ range.2
  level : ∀ level ∈ query.level, step.Holds "level" (.integer level)

/-- The point says what the query asks of the step. -/
structure Reports (query : Query) (step : Dict) (point : Point) : Prop where
  value : step.Holds query.key point.value
  admits : query.Admits step
  number : ∀ number : Int, point.step = some number ↔ step.Holds query.stepKey (.integer number)
  time : ∀ time : Binary64, point.time = some time ↔ step.HoldsNumber query.timeKey time
  level : step.Holds "level" (.integer point.level) ∨
    point.level = 0 ∧ ∀ level : Int, ¬step.Holds "level" (.integer level)

theorem acceptsStatus_iff :
    query.acceptsStatus step = true ↔ ∀ wanted ∈ query.status, ∃ status : String,
      step.Holds "status" (.text status) ∧ wanted.toList <:+: status.toList := by
  simp only [acceptsStatus, Option.all_eq_true, Option.any_eq_true, textAt?_eq_some_iff, occursIn_iff]
  rfl

theorem acceptsTime_iff :
    query.acceptsTime step = true ↔ ∀ range ∈ query.time, ∃ time : Binary64,
      step.HoldsNumber query.timeKey time ∧ time.Within range.1 range.2 := by
  simp only [acceptsTime, Option.all_eq_true, Option.any_eq_true, realAt?_eq_some_iff, within_iff]
  rfl

theorem acceptsNumber_iff :
    query.acceptsNumber step = true ↔ ∀ range ∈ query.steps, ∃ number : Int,
      step.Holds query.stepKey (.integer number) ∧ range.1 ≤ number ∧ number ≤ range.2 := by
  simp only [acceptsNumber, Option.all_eq_true, Option.any_eq_true, integerAt?_eq_some_iff,
    Bool.and_eq_true, decide_eq_true_eq]
  rfl

theorem acceptsLevel_iff :
    query.acceptsLevel step = true ↔ ∀ level ∈ query.level, step.Holds "level" (.integer level) := by
  simp only [acceptsLevel, Option.all_eq_true, Option.any_eq_true, integerAt?_eq_some_iff,
    decide_eq_true_eq, exists_eq_right]
  rfl

theorem accepts_iff : query.accepts step = true ↔ query.Admits step := by
  unfold accepts
  rw [Bool.and_eq_true, Bool.and_eq_true, Bool.and_eq_true, acceptsStatus_iff, acceptsTime_iff,
    acceptsNumber_iff, acceptsLevel_iff]
  constructor
  · rintro ⟨⟨⟨hstatus, htime⟩, hnumber⟩, hlevel⟩
    exact ⟨hstatus, htime, hnumber, hlevel⟩
  · rintro ⟨hstatus, htime, hnumber, hlevel⟩
    exact ⟨⟨⟨hstatus, htime⟩, hnumber⟩, hlevel⟩

/-- An integer, or another one instead if there is none. -/
theorem getD_integerAt?_eq_iff {level : Int} :
    (integerAt? step key).getD 0 = level ↔
      step.Holds key (.integer level) ∨
        level = 0 ∧ ∀ other : Int, ¬step.Holds key (.integer other) := by
  simp only [← integerAt?_eq_some_iff]
  cases integerAt? step key with
  | none => simp [eq_comm]
  | some number => simp

/-- A step has a point if it holds the field and passes every test. -/
theorem point?_eq_some_iff {point : Point} :
    query.point? step = some point ↔ query.Reports step point := by
  have hpoint : query.point? step = some point ↔
      query.accepts step = true ∧ integerAt? step query.stepKey = point.step ∧
        realAt? step query.timeKey = point.time ∧
          (integerAt? step Step.levelKey).getD 0 = point.level ∧
            step.field? query.key = some point.value := by
    obtain ⟨number, time, level, value⟩ := point
    unfold point?
    cases step.field? query.key with
    | none => simp
    | some held => by_cases hadmits : query.accepts step = true <;> simp [hadmits]
  rw [hpoint, field?_eq_some_iff, accepts_iff, getD_integerAt?_eq_iff]
  constructor
  · rintro ⟨hadmits, hnumber, htime, hlevel, hvalue⟩
    refine ⟨hvalue, hadmits, fun number => ?_, fun time => ?_, hlevel⟩
    · rw [← hnumber, integerAt?_eq_some_iff]
    · rw [← htime, realAt?_eq_some_iff]
  · rintro ⟨hvalue, hadmits, hnumber, htime, hlevel⟩
    refine ⟨hadmits, Option.ext fun number => ?_, Option.ext fun time => ?_, hlevel, hvalue⟩
    · rw [integerAt?_eq_some_iff, hnumber]
    · rw [realAt?_eq_some_iff, htime]

/-! ## Gathering by recursion -/

mutual

/-- The points in a node at a key: those of the steps in it, if it is a list of a time level. -/
def gatherNode (query : Query) (key : String) : Node → List Point
  | .list items => if isTimeLevelKey key then gatherItems query items else []
  | .value _ => []
  | .dict _ => []

/-- The points in the entries of a step. -/
def gatherEntries (query : Query) : List (String × Node) → List Point
  | [] => []
  | (key, node) :: rest => gatherNode query key node ++ gatherEntries query rest

/-- The points of steps and of all within them, step by step. -/
def gatherItems (query : Query) : List (List (String × Node)) → List Point
  | [] => []
  | step :: rest =>
    ((query.point? step).toList ++ gatherEntries query step) ++ gatherItems query rest

end

/-- The points of a step and of all within it. -/
def gather (query : Query) (step : Dict) : List Point :=
  (query.point? step).toList ++ gatherEntries query step

theorem gatherItems_eq (items : List Dict) :
    query.gatherItems items = items.flatMap query.gather := by
  induction items with
  | nil => rfl
  | cons step rest ih => rw [gatherItems, List.flatMap_cons, ih, gather]

theorem gatherEntries_eq (step : Dict) :
    query.gatherEntries step = (nestedSteps step).flatMap query.gather := by
  induction step with
  | nil => rfl
  | cons entry rest ih =>
      obtain ⟨key, node⟩ := entry
      have hwithin : query.gatherNode key node = (stepsWithin (key, node)).flatMap query.gather := by
        unfold stepsWithin
        cases node with
        | value held => simp [gatherNode, Node.items]
        | dict entries => simp [gatherNode, Node.items]
        | list items =>
            rw [gatherNode, gatherItems_eq, Node.items]
            split <;> rfl
      rw [gatherEntries, ih, hwithin]
      exact List.flatMap_append.symm

theorem gather_eq (step : Dict) :
    query.gather step = (query.point? step).toList ++ (nestedSteps step).flatMap query.gather := by
  rw [gather, gatherEntries_eq]

/-- The recursion gathers what the visited steps have. -/
theorem gather_eq_filterMap (step : Dict) :
    query.gather step = (preorder step).filterMap query.point? := by
  induction step using preorder.induct with
  | case1 step ih =>
      have hnested : (nestedSteps step).flatMap query.gather =
          (nestedSteps step).flatMap fun nested => (preorder nested).filterMap query.point? :=
        List.flatMap_congr fun nested hnested => ih ⟨nested, hnested⟩
      rw [gather_eq, preorder_eq, hnested, ← List.filterMap_flatMap, List.filterMap_cons]
      cases query.point? step <;> rfl

end Query

/-! ## The stack of steps -/

/-- The loop of the walk: the steps that are still to be visited, the last of them next, and the
points found so far. -/
structure Worklist where
  pending : List Dict
  found : List Point

/-- The lists of steps within a step, in the order of their keys. -/
def nestedLists (step : Dict) : List (List Dict) :=
  (step.filter fun entry => isTimeLevelKey entry.1).map fun entry => entry.2.items

theorem flatten_nestedLists (step : Dict) : (nestedLists step).flatten = nestedSteps step := by
  unfold nestedSteps
  induction step with
  | nil => rfl
  | cons entry rest ih =>
      rw [List.flatMap_cons, ← ih, stepsWithin]
      unfold nestedLists
      cases hkey : isTimeLevelKey entry.1 <;> simp [hkey]

namespace Worklist

/-- One turn of the loop: the last step is taken off, and the steps within it are put there, the
last list first and each list from its end. -/
def turn (query : Query) (work : Worklist) : Worklist :=
  match work.pending.getLast? with
  | none => work
  | some step =>
    { pending := work.pending.dropLast ++ (nestedLists step).reverse.flatMap List.reverse
      found := work.found ++ (query.point? step).toList }

/-- A turn of the loop is a step of the walk. -/
theorem turn_eq (query : Query) (step : Dict) (pending : List Dict) (found : List Point) :
    turn query ⟨(step :: pending).reverse, found⟩ =
      ⟨(nestedSteps step ++ pending).reverse, found ++ (query.point? step).toList⟩ := by
  have hlists : (nestedLists step).reverse.flatMap List.reverse = (nestedSteps step).reverse := by
    rw [← flatten_nestedLists, List.reverse_flatten, ← List.map_reverse]
    rfl
  unfold turn
  rw [List.reverse_cons, List.getLast?_concat, List.reverse_append, ← hlists]
  simp only [List.dropLast_concat]

/-- The loop ends, with the points that the walk finds. -/
theorem exists_turns (query : Query) (pending : List Dict) (found : Array Point) :
    ∃ turns : Nat, (turn query)^[turns] ⟨pending.reverse, found.toList⟩ =
      ⟨[], (visit query pending found).toList⟩ := by
  induction pending, found using visit.induct query with
  | case1 found => exact ⟨0, by rw [visit]; rfl⟩
  | case2 step pending found ih =>
      obtain ⟨turns, hturns⟩ := ih
      refine ⟨turns + 1, ?_⟩
      rw [Function.iterate_succ_apply, turn_eq, visit, ← hturns, Array.toList_appendList]

end Worklist

/-- The history of a field is what the recursion gathers from the steps, one after the other: of each
step its point, if it has one, and then what is gathered from the steps in its lists of time levels. A
step has a point if it holds the field and passes every test. The loop on the stack of steps ends with
these points. -/
theorem points_eq_gather (query : Query) :
    (∀ steps : List Dict, points query steps = steps.flatMap query.gather) ∧
      (∀ step : Dict, query.gather step =
        (query.point? step).toList ++ step.flatMap fun
          | (key, .list items) =>
            if "time-level-".toList <+: key.toList then items.flatMap query.gather else []
          | _ => []) ∧
      (∀ (step : Dict) (point : Point),
        query.point? step = some point ↔ query.Reports step point) ∧
      ∀ steps : List Dict, ∃ turns : Nat,
        (Worklist.turn query)^[turns] ⟨steps.reverse, []⟩ = ⟨[], points query steps⟩ := by
  refine ⟨?_, ?_, fun step point => Query.point?_eq_some_iff,
    fun steps => Worklist.exists_turns query steps #[]⟩
  · intro steps
    rw [points_eq, List.filterMap_flatMap]
    exact List.flatMap_congr fun step _ => (query.gather_eq_filterMap step).symm
  · intro step
    rw [query.gather_eq, nestedSteps, List.flatMap_assoc]
    congr 1
    refine List.flatMap_congr fun entry _ => ?_
    obtain ⟨key, node⟩ := entry
    cases node with
    | value held => simp [stepsWithin, Node.items]
    | dict entries => simp [stepsWithin, Node.items]
    | list items =>
        have hkey : isTimeLevelKey key = true ↔ "time-level-".toList <+: key.toList :=
          List.isPrefixOf_iff_prefix
        simp only [stepsWithin, hkey, Node.items]
        split <;> rfl

/-! A step that fails a test keeps the points within it. -/

example :
    ({ key := "h", level := some 1 } : Query).gather
      [("h", .value (.integer 5)),
        ("time-level-1", .list [[("h", .value (.integer 7)), ("level", .value (.integer 1))]])] =
      [⟨none, none, 1, .integer 7⟩] := by
  decide +kernel

end History

end SolverLog
