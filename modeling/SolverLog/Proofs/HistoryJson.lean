import SolverLog.Proofs.Gathering
import SolverLog.Proofs.Unambiguous

/-!
# What the JSON of a history leaves open

The points of a history are written without a tag for the kind of their values, and a missing step or
time as null. A value that is no finite number is written as its text, but a time that is none is null
too. So the JSON tells points apart by all that is in them, except that it does not tell a missing time
from NaN or an infinite one.

* `decoded_of_mem_points` — the values of points are decoded, so they are read back from their JSON.
* `Point.Indistinct` — points that differ at most in a time that is null.
* `compact_toJson_eq_iff` — these are the points that have one compact text.
-/

namespace SolverLog

open Number

/-! ## The values of points -/

theorem Value.toJson_inj {value value' : Value} (h : value.Decoded) (h' : value'.Decoded) :
    value.toJson = value'.toJson ↔ value = value' := by
  constructor
  · intro heq
    have hread := Value.ofJson?_toJson h
    rw [heq, Value.ofJson?_toJson h'] at hread
    exact (Option.some.inj hread).symm
  · rintro rfl
    rfl

/-- What is inside a decoded dictionary is decoded. -/
theorem Dict.Decoded.inside {inner outer : Dict} (h : outer.Decoded) (hinside : inner.Inside outer) :
    inner.Decoded := by
  induction hinside with
  | self => exact h
  | member hentry _ ih =>
      cases h _ hentry with
      | dict hdict => exact ih hdict
  | element hentry hitem _ ih =>
      cases h _ hentry with
      | list _ hitems => exact ih (hitems _ hitem)

namespace History

variable {query : Query} {step : Dict}

/-- What is inside a step right within another one is inside that one. -/
theorem inside_of_mem_nestedSteps {nested inner : Dict} (hnested : nested ∈ nestedSteps step)
    (h : inner.Inside nested) : inner.Inside step := by
  obtain ⟨⟨key, node⟩, hentry, hwithin⟩ := List.mem_flatMap.mp hnested
  unfold stepsWithin at hwithin
  split at hwithin
  · cases node with
    | list items => exact .element hentry hwithin h
    | value | dict => cases hwithin
  · cases hwithin

/-- The steps that are visited from a step on are inside it. -/
theorem inside_of_mem_preorder {visited : Dict} (hvisited : visited ∈ preorder step) :
    visited.Inside step := by
  induction step using preorder.induct with
  | case1 step ih =>
      rw [preorder_eq, List.mem_cons] at hvisited
      rcases hvisited with rfl | hwithin
      · exact .self visited
      · obtain ⟨nested, hnested, hvisited⟩ := List.mem_flatMap.mp hwithin
        exact inside_of_mem_nestedSteps hnested (ih ⟨nested, hnested⟩ hvisited)

/-- A point is what a dictionary inside a step reports. -/
theorem exists_inside_of_mem_points {steps : List Dict} {point : Point}
    (hpoint : point ∈ points query steps) :
    ∃ step ∈ steps, ∃ visited : Dict, visited.Inside step ∧ query.Reports visited point := by
  rw [points_eq] at hpoint
  obtain ⟨visited, hvisited, hreports⟩ := List.mem_filterMap.mp hpoint
  obtain ⟨step, hstep, hvisited⟩ := List.mem_flatMap.mp hvisited
  exact ⟨step, hstep, visited, inside_of_mem_preorder hvisited, Query.point?_eq_some_iff.mp hreports⟩

/-- The values of the points of decoded steps are decoded. -/
theorem decoded_of_mem_points {steps : List Dict} (h : ∀ step ∈ steps, Dict.Decoded step) {point : Point}
    (hpoint : point ∈ points query steps) : point.value.Decoded := by
  obtain ⟨step, hstep, visited, hinside, hreports⟩ := exists_inside_of_mem_points hpoint
  have hentry := (h step hstep).inside hinside _ (Entries.mem_of_value? hreports.value)
  cases hentry with
  | value hvalue => exact hvalue

/-! ## Points with one text -/

/-- The time is missing, or it is no finite number. -/
def Timeless (time : Option Binary64) : Prop :=
  ∀ negative magnitude, time ≠ some (.finite negative magnitude)

/-- Points with the same step, level and value, and with the same time unless neither has a finite one. -/
structure Point.Indistinct (point point' : Point) : Prop where
  step : point.step = point'.step
  time : point.time = point'.time ∨ Timeless point.time ∧ Timeless point'.time
  level : point.level = point'.level
  value : point.value = point'.value

theorem timeToJson_eq_null_iff {time : Option Binary64} : timeToJson time = .null ↔ Timeless time := by
  unfold timeToJson
  split
  · next negative magnitude => exact iff_of_false Json.noConfusion fun h => h negative magnitude rfl
  · next hnone => exact iff_of_true rfl hnone

theorem timeToJson_eq_number_iff {time : Option Binary64} {negative : Bool} {magnitude : Magnitude} :
    timeToJson time = .number negative magnitude ↔ time = some (.finite negative magnitude) := by
  unfold timeToJson
  split
  · simp
  · next hnone => exact iff_of_false Json.noConfusion (hnone negative magnitude)

theorem timeToJson_inj {time time' : Option Binary64} :
    timeToJson time = timeToJson time' ↔ time = time' ∨ Timeless time ∧ Timeless time' := by
  constructor
  · intro heq
    by_cases htime : Timeless time
    · exact .inr ⟨htime, timeToJson_eq_null_iff.mp (heq ▸ timeToJson_eq_null_iff.mpr htime)⟩
    · unfold Timeless at htime
      push Not at htime
      obtain ⟨negative, magnitude, rfl⟩ := htime
      exact .inl (timeToJson_eq_number_iff.mp heq.symm).symm
  · rintro (rfl | ⟨htime, htime'⟩)
    · rfl
    · rw [timeToJson_eq_null_iff.mpr htime, timeToJson_eq_null_iff.mpr htime']

theorem integerOrNull_inj {number number' : Option Int} :
    (number.map Json.integer).getD .null = (number'.map Json.integer).getD .null ↔ number = number' := by
  cases number <;> cases number' <;> simp

theorem Point.toJson_inj {point point' : Point} (h : point.value.Decoded) (h' : point'.value.Decoded) :
    point.toJson = point'.toJson ↔ point.Indistinct point' := by
  unfold Point.toJson
  simp only [Json.object.injEq, List.cons.injEq, Prod.mk.injEq, true_and, and_true, integerOrNull_inj,
    timeToJson_inj, Json.integer.injEq, Value.toJson_inj h h']
  constructor
  · rintro ⟨hstep, htime, hlevel, hvalue⟩
    exact ⟨hstep, htime, hlevel, hvalue⟩
  · rintro ⟨hstep, htime, hlevel, hvalue⟩
    exact ⟨hstep, htime, hlevel, hvalue⟩

theorem toJson_inj {found found' : List Point} (h : ∀ point ∈ found, point.value.Decoded)
    (h' : ∀ point ∈ found', point.value.Decoded) :
    toJson found = toJson found' ↔ List.Forall₂ Point.Indistinct found found' := by
  unfold toJson
  rw [Json.list.injEq]
  induction found generalizing found' with
  | nil => simp [eq_comm]
  | cons point rest ih =>
      cases found' with
      | nil => simp
      | cons point' rest' =>
          rw [List.forall_mem_cons] at h h'
          rw [List.map_cons, List.map_cons, List.cons.injEq, List.forall₂_cons,
            Point.toJson_inj h.1 h'.1, ih h.2 h'.2]

/-- The histories of two logs have one compact JSON text just if their points differ in nothing but
times, each of which is missing, NaN or infinite. -/
theorem compact_toJson_eq_iff {options options' : Options} {lines lines' : List String}
    {document document' : Document} (h : Document.ofLines options lines = .ok document)
    (h' : Document.ofLines options' lines' = .ok document') (query query' : Query) :
    (toJson (points query document.steps)).compact = (toJson (points query' document'.steps)).compact ↔
      List.Forall₂ Point.Indistinct (points query document.steps) (points query' document'.steps) := by
  rw [Json.compact_injective.eq_iff]
  exact toJson_inj (fun _ => decoded_of_mem_points (Document.decoded_of_ofLines h).steps)
    fun _ => decoded_of_mem_points (Document.decoded_of_ofLines h').steps

/-- A step whose time is NaN. -/
def undatedLog : List String :=
  ["[INFO][rank 0][MRI][begin-step-attempt] tn = nan, h = 1"]

/-- The document of that log. -/
def undatedDocument : Document where
  globals := []
  steps := [[("level", .value (.integer 0)), ("tn", .value (.real .nan)), ("h", .value (.integer 1))]]

/-- Of two queries one finds the time of the step and the other none, and the texts are the same. -/
theorem compact_toJson_eq_iff_undated :
    Document.ofLines {} undatedLog = .ok undatedDocument ∧
      points { key := "h" } undatedDocument.steps = [⟨none, some .nan, 0, .integer 1⟩] ∧
      points { key := "h", timeKey := "t" } undatedDocument.steps = [⟨none, none, 0, .integer 1⟩] ∧
      (toJson (points { key := "h" } undatedDocument.steps)).compact =
        (toJson (points { key := "h", timeKey := "t" } undatedDocument.steps)).compact := by
  have hread : Document.ofLines {} undatedLog = .ok undatedDocument := by decide +kernel
  have htime : points { key := "h" } undatedDocument.steps = [⟨none, some .nan, 0, .integer 1⟩] := by
    decide +kernel
  have hnone :
      points { key := "h", timeKey := "t" } undatedDocument.steps = [⟨none, none, 0, .integer 1⟩] := by
    decide +kernel
  refine ⟨hread, htime, hnone, (compact_toJson_eq_iff hread hread _ _).mpr ?_⟩
  rw [htime, hnone]
  exact .cons ⟨rfl, .inr ⟨by simp [Timeless], by simp [Timeless]⟩, rfl, rfl⟩ .nil

end History

end SolverLog
