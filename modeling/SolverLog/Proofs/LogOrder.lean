import SolverLog.Proofs.Conservation
import SolverLog.Proofs.Tracking

/-!
# The history in the order of the log

If the records that begin steps have greater and greater integers at a key, and no other records
have that key, then its history increases just if the steps of the log never go back
(`Course.forward`).

* `Rising` — the stamps increase with the numbers of the dictionaries.
* `tracks_of_runLines` — the course of the steps of the state that a log reaches.
* `History.increasing_iff_forward` — the history increases just if the course goes forward.
-/

namespace SolverLog

namespace Builder

variable {key : String} {s t : State} {numbers : List Int}

/-- The integer that a dictionary is stamped with. -/
def State.stampNumber (s : State) (key : String) (number : Nat) : Int :=
  ((s.stamp key number).bind Value.integer?).getD 0

/-- The stamps are integers that increase with the numbers of the dictionaries, and are less than
those to come. -/
structure Rising (key : String) (s : State) (coming : List Int) : Prop where
  integer : ∀ number, s.stamped key number = true →
    s.stamp key number = some (.integer (s.stampNumber key number))
  increasing : ∀ first second, s.stamped key first = true → s.stamped key second = true →
    first < second → s.stampNumber key first < s.stampNumber key second
  below : ∀ number, s.stamped key number = true → ∀ later ∈ coming, s.stampNumber key number < later

namespace Rising

theorem initial : Rising key .initial numbers := by
  have hnone : ∀ number, State.initial.stamped key number = false := by
    intro number
    unfold State.stamped State.stamp
    rw [State.entries_initial]
    rfl
  refine ⟨?_, ?_, ?_⟩
  · intro number hstamped
    rw [hnone] at hstamped
    cases hstamped
  · intro first second hstamped
    rw [hnone] at hstamped
    cases hstamped
  · intro number hstamped
    rw [hnone] at hstamped
    cases hstamped

theorem same (hr : Rising key s numbers) (hstamp : ∀ number, t.stamp key number = s.stamp key number) :
    Rising key t numbers := by
  have hstamped : t.stamped key = s.stamped key := by
    funext number
    unfold State.stamped
    rw [hstamp]
  have hnumber : t.stampNumber key = s.stampNumber key := by
    funext number
    unfold State.stampNumber
    rw [hstamp]
  refine ⟨?_, ?_, ?_⟩
  · intro number
    rw [hstamped, hnumber, hstamp]
    exact hr.integer number
  · rw [hstamped, hnumber]
    exact hr.increasing
  · rw [hstamped, hnumber]
    exact hr.below

/-- The newest dictionary is stamped with the first integer to come. -/
theorem begins {first : Int} {rest : List Int} (hr : Rising key s (first :: rest))
    (hsorted : (first :: rest).Pairwise (· < ·))
    (hnew : t.stamp key s.dicts.size = some (.integer first))
    (hother : ∀ number, number ≠ s.dicts.size → t.stamp key number = s.stamp key number) :
    Rising key t rest := by
  have hfirst : t.stampNumber key s.dicts.size = first := by
    unfold State.stampNumber
    rw [hnew]
    rfl
  -- A stamp is the new one or an old one, and an old one is of an older dictionary.
  have hcases : ∀ number, t.stamped key number = true → number = s.dicts.size ∨
      number < s.dicts.size ∧ s.stamped key number = true ∧
        t.stampNumber key number = s.stampNumber key number := by
    intro number hstamped
    by_cases heq : number = s.dicts.size
    · exact Or.inl heq
    · unfold State.stamped at hstamped
      rw [hother number heq] at hstamped
      have hlt : number < s.dicts.size := by
        by_contra hge
        rw [stamp_of_size_le (Nat.le_of_not_lt hge)] at hstamped
        cases hstamped
      refine Or.inr ⟨hlt, hstamped, ?_⟩
      unfold State.stampNumber
      rw [hother number heq]
  refine ⟨?_, ?_, ?_⟩
  · intro number hstamped
    rcases hcases number hstamped with rfl | ⟨hlt, hold, hsame⟩
    · rw [hnew, hfirst]
    · rw [hsame, hother number (Nat.ne_of_lt hlt)]
      exact hr.integer number hold
  · intro a b ha hb hab
    rcases hcases a ha with rfl | ⟨haLt, haOld, haSame⟩
    · rcases hcases b hb with rfl | ⟨hbLt, -, -⟩
      · omega
      · omega
    · rcases hcases b hb with rfl | ⟨hbLt, hbOld, hbSame⟩
      · rw [haSame, hfirst]
        exact hr.below a haOld first List.mem_cons_self
      · rw [haSame, hbSame]
        exact hr.increasing a b haOld hbOld hab
  · intro number hstamped later hlater
    rcases hcases number hstamped with rfl | ⟨-, hold, hsame⟩
    · rw [hfirst]
      exact (List.pairwise_cons.mp hsorted).1 later hlater
    · rw [hsame]
      exact hr.below number hold later (List.mem_cons_of_mem _ hlater)

/-- A record takes the integer that it stamps from those to come. -/
theorem read {line : Nat} {record : Record} {later : List Value} (hr : Rising key s numbers)
    (h : Owned s) (hkey : key ≠ Step.levelKey) (hstep : RecordStep line record s t)
    (hpayload : (record.payload.value? key).isSome = true ↔ record.BeginsStep)
    (hvalues : (record.payload.value? key).toList ++ later = numbers.map .integer)
    (hsorted : numbers.Pairwise (· < ·)) :
    ∃ rest, later = rest.map .integer ∧ rest.Pairwise (· < ·) ∧ Rising key t rest := by
  cases hvalue : record.payload.value? key with
  | none =>
      rw [hvalue] at hvalues
      refine ⟨numbers, hvalues, hsorted, ?_⟩
      exact hr.same (hstep.stamp_other h hkey hvalue)
  | some held =>
      rw [hvalue] at hvalues
      have hbegins : record.BeginsStep := hpayload.mp (by simp [hvalue])
      rcases List.map_eq_cons_iff.mp hvalues.symm with ⟨first, rest, rfl, hheld, hlater⟩
      refine ⟨rest, hlater.symm, (List.pairwise_cons.mp hsorted).2, ?_⟩
      rw [Record.beginsStep_iff] at hbegins
      cases hstep with
      | opens hmarker henter hsets =>
          rw [hbegins] at hmarker
          cases hmarker
          rcases stamp_begins h hkey henter hsets with ⟨hnew, hother⟩
          apply hr.begins hsorted _ hother
          rw [hnew, hvalue, hheld]
      | remark hmarker => simp [hbegins] at hmarker
      | closes hmarker => simp [hbegins] at hmarker
      | beginsFastSteps hmarker => simp [hbegins] at hmarker
      | endsFastSteps hmarker => simp [hbegins] at hmarker

end Rising

/-- The course of the steps of a log is that of the steps of the state that it reaches. -/
theorem tracks_of_runLines {indicator : String} {lines : List String} {number : Nat} {course : Course}
    (hkey : key ≠ Step.levelKey) (h : Owned s) (ht : Tracks key s s.frames course)
    (hr : Rising key s numbers) (hrun : runLines indicator number lines s = .reached t)
    (hpayload : ∀ record ∈ Record.readAll indicator lines,
      (record.payload.value? key).isSome = true ↔ record.BeginsStep)
    (hvalues : (Record.readAll indicator lines).filterMap (·.payload.value? key) =
      numbers.map .integer) (hsorted : numbers.Pairwise (· < ·)) :
    Tracks key t t.frames ((Record.readAll indicator lines).foldl Course.read course) ∧
      Rising key t [] := by
  -- Each record that begins a step takes one of the integers to come.
  induction lines generalizing number s numbers course with
  | nil =>
      cases hrun
      have hnil : numbers = [] := List.map_eq_nil_iff.mp hvalues.symm
      subst hnil
      exact ⟨ht, hr⟩
  | cons line following ih =>
      obtain ⟨middle, hline, hfollowing⟩ := runLines_cons_reached hrun
      have howned : Owned middle := run_invariant (fun hs hstep => hs.step hstep) h hline
      unfold Record.readAll at hpayload hvalues ⊢
      rcases recordStep_of_run_ofLine hline with ⟨hread, rfl⟩ | ⟨record, hread, hstep⟩
      · rw [hread] at hpayload hvalues ⊢
        exact ih h ht hr hfollowing hpayload hvalues hsorted
      · rw [hread] at hpayload hvalues ⊢
        have hrecord := hpayload record (by simp)
        have hfilter : (record.payload.value? key).toList ++
            (Record.readAll indicator following).filterMap (·.payload.value? key) =
              numbers.map .integer := by
          rw [← hvalues, List.filterMap_append]
          cases hvalue : record.payload.value? key <;> simp [hvalue]
        obtain ⟨rest, hlater, hrest, hrising⟩ := hr.read h hkey hstep hrecord hfilter hsorted
        have htracks := ht.read h hkey hstep (hrecord.trans Record.beginsStep_iff)
        apply ih howned htracks hrising hfollowing _ hlater hrest
        intro other hother
        exact hpayload other (List.mem_append_right _ hother)

theorem Tracks.initial : Tracks key .initial State.initial.frames Course.empty := by
  have hvisits : State.initial.visits = [] := rfl
  refine ⟨⟨?_, by simp [State.initial], .nil, by simp [State.initial], by simp [State.initial]⟩,
    .nil, rfl, ?_⟩
  · intro number hvisited
    rw [hvisits] at hvisited
    cases hvisited
  · unfold State.stampedVisits
    rw [hvisits]
    simp [Course.empty]

/-! ## The values of the history -/

/-- Without tests, the history has the stamps of what is visited. -/
theorem Owned.values_points (h : Owned s) (key : String) :
    (History.points { key } s.document.steps).map History.Point.value =
      s.visits.filterMap (s.stamp key) := by
  rw [h.points_document, List.map_filterMap]
  congr 1
  funext number
  have hfield : (s.dictOf number).field? key = s.stamp key number := by
    unfold Dict.field? State.stamp
    show (Entries.value? (s.dictOf number) key).bind Node.value? = _
    rw [Addressed.value?_dictOf h]
    cases (s.entries number).value? key with
    | none => rfl
    | some slot => cases slot <;> rfl
  unfold History.Query.point?
  rw [hfield]
  cases s.stamp key number <;> rfl

/-- The stamps of what is visited, as integers. -/
theorem Rising.filterMap_stamp (hr : Rising key s numbers) (visited : List Nat) :
    visited.filterMap (s.stamp key) =
      ((visited.filter (s.stamped key)).map (s.stampNumber key)).map .integer := by
  induction visited with
  | nil => rfl
  | cons number rest ih =>
      cases hstamped : s.stamped key number with
      | true =>
          rw [List.filterMap_cons_some (hr.integer number hstamped), ih,
            List.filter_cons_of_pos hstamped]
          rfl
      | false =>
          have hnone : s.stamp key number = none := by
            simpa [State.stamped] using hstamped
          rw [List.filterMap_cons_none hnone, ih, List.filter_cons_of_neg (by simp [hstamped])]

/-- The stamps of what is visited increase just if the numbers of the dictionaries do. -/
theorem Rising.pairwise_iff (hr : Rising key s numbers) :
    ((s.stampedVisits key).map (s.stampNumber key)).Pairwise (· < ·) ↔
      (s.stampedVisits key).Pairwise (· < ·) := by
  have hstamped : ∀ number ∈ s.stampedVisits key, s.stamped key number = true := by
    intro number hnumber
    exact (List.mem_filter.mp hnumber).2
  rw [List.pairwise_map]
  constructor
  · intro hsorted
    apply hsorted.imp_of_mem
    intro first second hfirst hsecond hlt
    rcases Nat.lt_trichotomy first second with hbefore | rfl | hafter
    · exact hbefore
    · omega
    · have hgt := hr.increasing second first (hstamped second hsecond) (hstamped first hfirst) hafter
      omega
  · intro hsorted
    apply hsorted.imp_of_mem
    intro first second hfirst hsecond hlt
    exact hr.increasing first second (hstamped first hfirst) (hstamped second hsecond) hlt

end Builder

/-- The history of a key that the beginnings of steps set, to greater and greater integers, increases
just if the steps of the log never go back to a list of fast steps before another one with steps. -/
theorem History.increasing_iff_forward {options : Options} {lines : List String}
    {document : Document} {key : String} {numbers : List Int}
    (h : Document.ofLines options lines = .ok document) (hkey : key ≠ Step.levelKey)
    (hpayload : ∀ record ∈ Record.readAll options.arrayIndicator lines,
      (record.payload.value? key).isSome = true ↔ record.BeginsStep)
    (hvalues : (Record.readAll options.arrayIndicator lines).filterMap (·.payload.value? key) =
      numbers.map .integer) (hsorted : numbers.Pairwise (· < ·)) :
    (∃ values : List Int,
        (History.points { key } document.steps).map History.Point.value = values.map .integer ∧
          values.Pairwise (· < ·)) ↔
      (Course.ofRecords (Record.readAll options.arrayIndicator lines)).forward = true := by
  rcases Builder.reached_of_ofLines h with ⟨s, hrun, hdocument⟩
  have howned : Builder.Owned s := Builder.owned_of_runLines hrun
  obtain ⟨htracks, hrising⟩ := Builder.tracks_of_runLines hkey Builder.Owned.initial
    Builder.Tracks.initial Builder.Rising.initial hrun hpayload hvalues hsorted
  have hpoints : (History.points { key } document.steps).map History.Point.value =
      ((s.stampedVisits key).map (s.stampNumber key)).map .integer := by
    rw [hdocument, howned.values_points, hrising.filterMap_stamp]
    rfl
  unfold Course.ofRecords
  rw [htracks.forward, ← hrising.pairwise_iff, hpoints]
  -- Values that are integers are the same only if the integers are.
  constructor
  · rintro ⟨values, hsame, hincreasing⟩
    have hinjective : Function.Injective Value.integer := fun _ _ heq => Value.integer.inj heq
    rw [hinjective.list_map hsame]
    exact hincreasing
  · intro hincreasing
    exact ⟨_, rfl, hincreasing⟩

/-- A log that goes back to the first time level after a step of the second one. -/
def interleavedLog : List String :=
  ["[INFO][rank 0][MRI][begin-step-attempt] k = 1",
    "[INFO][rank 0][MRI][begin-fast-steps]",
    "[INFO][rank 0][MRI][begin-step-attempt] k = 2",
    "[INFO][rank 0][MRI][end-step-attempt]",
    "[INFO][rank 0][MRI][begin-fast-steps]",
    "[INFO][rank 0][MRI][begin-step-attempt] k = 3",
    "[INFO][rank 0][MRI][end-step-attempt]",
    "[INFO][rank 0][MRI][end-fast-steps]",
    "[INFO][rank 0][MRI][begin-step-attempt] k = 4",
    "[INFO][rank 0][MRI][end-step-attempt]",
    "[INFO][rank 0][MRI][end-fast-steps]",
    "[INFO][rank 0][MRI][end-step-attempt]"]

/-- The document of that log. -/
def interleavedDocument : Document where
  globals := []
  steps :=
    [[(Step.levelKey, .value (.integer 0)),
      ("k", .value (.integer 1)),
      (Step.timeLevelKey 1, .list
        [[(Step.levelKey, .value (.integer 1)), ("k", .value (.integer 2))],
          [(Step.levelKey, .value (.integer 1)), ("k", .value (.integer 4))]]),
      (Step.timeLevelKey 2, .list
        [[(Step.levelKey, .value (.integer 2)), ("k", .value (.integer 3))]])]]

theorem History.interleaved_not_increasing :
    Document.ofLines {} interleavedLog = .ok interleavedDocument ∧
      "k" ≠ Step.levelKey ∧
      (∀ record ∈ Record.readAll Payload.defaultIndicator interleavedLog,
        (record.payload.value? "k").isSome = true ↔ record.BeginsStep) ∧
      (Record.readAll Payload.defaultIndicator interleavedLog).filterMap (·.payload.value? "k") =
        [1, 2, 3, 4].map .integer ∧
      ([1, 2, 3, 4] : List Int).Pairwise (· < ·) ∧
      ¬∃ values : List Int,
        (History.points { key := "k" } interleavedDocument.steps).map History.Point.value =
            values.map .integer ∧
          values.Pairwise (· < ·) := by
  have hread : Document.ofLines {} interleavedLog = .ok interleavedDocument := by decide +kernel
  have hpayload : ∀ record ∈ Record.readAll Payload.defaultIndicator interleavedLog,
      (record.payload.value? "k").isSome = true ↔ record.BeginsStep := by decide +kernel
  have hvalues : (Record.readAll Payload.defaultIndicator interleavedLog).filterMap
      (·.payload.value? "k") = [1, 2, 3, 4].map .integer := by decide +kernel
  refine ⟨hread, by decide, hpayload, hvalues, by decide, ?_⟩
  rw [History.increasing_iff_forward hread (by decide) hpayload hvalues (by decide)]
  decide +kernel

end SolverLog
