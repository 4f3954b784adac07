import SolverLog.Proofs.Digits
import SolverLog.Proofs.Inside
import SolverLog.Proofs.Register
import SolverLog.Proofs.Tracking

/-!
# The time levels of steps

A step stands in the list of its time level, and it has that level first. The lists `evolve` and
`time-level-N` have other elements only if the log begins entries of lists of such names.

* `Registers.element` — an element of a list that has steps only is that of an attempt.
* `Document.levelsPlaced_of_ofLines` — the levels of the steps in lists, and of the top-level steps.
-/

namespace SolverLog

open History (isTimeLevelKey)

/-! ## Keys of lists of fast steps -/

/-- The key of a list of fast steps is the stem with a text after it. -/
theorem isTimeLevelKey_iff {key : String} :
    isTimeLevelKey key = true ↔ ∃ text, key = Step.timeLevelStem ++ text := by
  unfold isTimeLevelKey
  rw [List.isPrefixOf_iff_prefix]
  constructor
  · rintro ⟨rest, hrest⟩
    refine ⟨String.ofList rest, ?_⟩
    apply String.toList_injective
    rw [String.toList_append, String.toList_ofList, hrest]
  · rintro ⟨text, rfl⟩
    rw [String.toList_append]
    exact List.prefix_append _ _

/-- An entry of a list of fast steps has a label of that form. -/
theorem isTimeLevelKey_eq_false {label list : String}
    (hmarker : Marker.ofLabel label = .opens (.entry list))
    (hlabel : ∀ text, label ≠ "begin-time-level-" ++ text ++ "-list") :
    isTimeLevelKey list = false := by
  rw [Bool.eq_false_iff]
  intro hkey
  obtain ⟨text, rfl⟩ := isTimeLevelKey_iff.mp hkey
  apply hlabel text
  rw [(Marker.ofLabel_eq_opens_entry.mp hmarker).2, ← String.append_assoc]
  rfl

/-- A label of that form starts in one way. -/
theorem ne_fastEntry {label : String}
    (h : "begin-time-level-".toList.isPrefixOf label.toList = false) (text : String) :
    label ≠ "begin-time-level-" ++ text ++ "-list" := by
  rintro rfl
  rw [Bool.eq_false_iff, Ne, List.isPrefixOf_iff_prefix, String.append_assoc,
    String.toList_append] at h
  exact h (List.prefix_append _ _)

theorem ne_evolveKey_of_isTimeLevelKey {key : String} (h : isTimeLevelKey key = true) :
    key ≠ Step.evolveKey := by
  rintro rfl
  exact absurd h (by decide +kernel)

namespace Attempt

variable {attempt : Attempt}

/-- A step is in a list of fast steps just if a region of fast steps is open. -/
theorem isTimeLevelKey_listKey : isTimeLevelKey attempt.listKey = true ↔ attempt.level ≠ 0 := by
  unfold listKey
  split
  · next hzero => simpa [hzero] using (by decide +kernel : isTimeLevelKey Step.evolveKey = false)
  · next hne => simpa [hne] using Builder.isTimeLevelKey_timeLevelKey attempt.level

theorem level_of_listKey_evolve (h : attempt.listKey = Step.evolveKey) : attempt.level = 0 := by
  by_contra hne
  exact ne_evolveKey_of_isTimeLevelKey (isTimeLevelKey_listKey.mpr hne) h

/-- The key of its list tells the level of a step. -/
theorem level_of_listKey_eq {other : Attempt} (h : attempt.listKey = other.listKey) :
    attempt.level = other.level := by
  by_cases hzero : other.level = 0
  · rw [hzero]
    exact level_of_listKey_evolve (h.trans (if_pos hzero))
  · have hne : attempt.level ≠ 0 := by
      rw [← isTimeLevelKey_listKey, h]
      exact isTimeLevelKey_listKey.mpr hzero
    unfold listKey at h
    rw [if_neg hne, if_neg hzero] at h
    exact Step.timeLevelKey_injective h

end Attempt

namespace Builder

variable {s : State} {path : Nat → Path} {lines : List String} {register : List (Nat × Attempt)}
  {lists : String → Prop}

/-- An element of a list that has steps only has the level of an attempt first, and the list is that
of the level. -/
theorem Registers.element (h : Registers lists path s lines register) (howned : Owned s)
    {parent number : Nat} {key : String} {numbers : List Nat} (hkey : ¬lists key)
    (hentry : (key, Slot.list numbers) ∈ s.entries parent) (hnumber : number ∈ numbers) :
    ∃ attempt : Attempt, key = attempt.listKey ∧
      (s.dictOf number).head? = some (Step.levelKey, .value (.integer attempt.level)) := by
  obtain ⟨entry, hmem, rfl⟩ := List.mem_map.mp ((h.listed hentry hnumber).resolve_right hkey)
  exact ⟨entry.2, (h.held howned hmem hentry hnumber).2.1,
    (h.registered entry hmem).head?_dictOf howned⟩

/-- A top-level step is that of an attempt. -/
theorem Registers.topLevel (h : Registers lists path s lines register) (howned : Owned s)
    (haddressed : Addressed s path) {index number : Nat} (hindex : s.steps.toList[index]? = some number) :
    ∃ attempt ∈ register.map Prod.snd, attempt.IsOf lines ∧ attempt.path = .step index ∧
      (s.dictOf number).head? = some (Step.levelKey, .value (.integer attempt.level)) := by
  have hstep : number ∈ s.steps.toList := List.mem_of_getElem? hindex
  rw [h.steps_eq] at hstep
  obtain ⟨entry, hentry, rfl⟩ := List.mem_map.mp hstep
  have hmem := (List.mem_filter.mp hentry).1
  have hreg := h.registered entry hmem
  exact ⟨entry.2, List.mem_map_of_mem hmem, hreg.isOf, hreg.path_eq.trans (haddressed.step hindex),
    hreg.head?_dictOf howned⟩

end Builder

/-- The steps of a document have their levels first, and stand in the lists of their levels: those
within `evolve` have level 0, those within a list of fast steps have the level of the list, and the
top-level ones have the number of the regions that are open where they begin. -/
structure Document.LevelsPlaced (document : Document) (lines : List String)
    (attempts : List Attempt) : Prop where
  evolve : ∀ dict, document.Has dict → ∀ items, (Step.evolveKey, Node.list items) ∈ dict →
    ∀ item ∈ items, item.head? = some (Step.levelKey, .value (.integer 0))
  fast : ∀ dict, document.Has dict → ∀ key items, (key, Node.list items) ∈ dict →
    isTimeLevelKey key = true → ∃ level, 1 ≤ level ∧ key = Step.timeLevelKey level ∧
      ∀ item ∈ items, item.head? = some (Step.levelKey, .value (.integer level))
  topLevel : ∀ index step, document.steps[index]? = some step →
    ∃ attempt ∈ attempts, attempt.IsOf lines ∧ attempt.path = .step index ∧
      step.head? =
        some (Step.levelKey, .value (.integer (regionsOf (lines.take (attempt.line - 1)))))

/-- The levels of the steps of a log that begins no entries of the lists `evolve` and
`time-level-N` itself. -/
theorem Document.levelsPlaced_of_ofLines {options : Options} {lines : List String}
    {document : Document} (h : ofLines options lines = .ok document)
    (hevolve : ∀ record ∈ Record.readAll options.arrayIndicator lines,
      record.label ≠ "begin-evolve-list")
    (hfast : ∀ record ∈ Record.readAll options.arrayIndicator lines, ∀ text,
      record.label ≠ "begin-time-level-" ++ text ++ "-list") :
    document.LevelsPlaced lines (attempts options lines) := by
  obtain ⟨s, path, register, hrun, rfl, haddressed, hregister, hattempts⟩ :=
    Builder.Registers.ofLines
      (fun key => key ≠ Step.evolveKey ∧ isTimeLevelKey key = false) h (by
        intro record hrecord list hmarker
        refine ⟨?_, isTimeLevelKey_eq_false hmarker (hfast record hrecord)⟩
        rintro rfl
        exact hevolve record hrecord (Marker.ofLabel_eq_opens_entry.mp hmarker).2)
  have howned := Builder.owned_of_runLines hrun
  have hfilled := Builder.filled_of_runLines hrun
  refine ⟨?_, ?_, ?_⟩
  · intro dict hhas items hlist item hitem
    obtain ⟨parent, rfl⟩ := howned.exists_of_has hhas
    obtain ⟨numbers, hentry, rfl⟩ := howned.list_mem_dictOf hlist
    obtain ⟨number, hnumber, rfl⟩ := List.mem_map.mp hitem
    obtain ⟨attempt, hkey, hlevel⟩ :=
      hregister.element howned (fun hlists => hlists.1 rfl) hentry hnumber
    rw [hlevel, Attempt.level_of_listKey_evolve hkey.symm]
    rfl
  · intro dict hhas key items hlist hkey
    obtain ⟨parent, rfl⟩ := howned.exists_of_has hhas
    obtain ⟨numbers, hentry, rfl⟩ := howned.list_mem_dictOf hlist
    have helement (number : Nat) (hnumber : number ∈ numbers) :=
      hregister.element howned (fun hlists => by rw [hkey] at hlists; cases hlists.2) hentry hnumber
    -- The list has an element, and its level is that of the key.
    obtain ⟨first, hfirst⟩ := List.exists_mem_of_ne_nil numbers (hfilled.ne_nil hentry)
    obtain ⟨attempt, rfl, -⟩ := helement first hfirst
    have hne : attempt.level ≠ 0 := Attempt.isTimeLevelKey_listKey.mp hkey
    refine ⟨attempt.level, Nat.one_le_iff_ne_zero.mpr hne, if_neg hne, ?_⟩
    intro item hitem
    obtain ⟨number, hnumber, rfl⟩ := List.mem_map.mp hitem
    obtain ⟨other, hsame, hlevel⟩ := helement number hnumber
    rw [hlevel, Attempt.level_of_listKey_eq hsame]
  · intro index step hindex
    rw [Builder.State.document_eq howned, List.getElem?_map, Option.map_eq_some_iff] at hindex
    obtain ⟨number, hnumber, rfl⟩ := hindex
    obtain ⟨attempt, hattempt, hisOf, hpath, hlevel⟩ :=
      hregister.topLevel howned haddressed hnumber
    rw [hattempts] at hattempt
    refine ⟨attempt, hattempt, hisOf, hpath, ?_⟩
    rw [hlevel, hisOf.level_eq]

/-- A log with a step in a section, and fast steps within a section of another one. -/
def nestedLog : List String :=
  ["[I][rank 0][][begin-setup]",
    "[I][rank 0][][begin-step-attempt]",
    "[I][rank 0][][end-step-attempt]",
    "[I][rank 0][][end-setup]",
    "[I][rank 0][][begin-fast-steps]",
    "[I][rank 0][][begin-step-attempt] h = 1",
    "[I][rank 0][][begin-nls]",
    "[I][rank 0][][begin-fast-steps]",
    "[I][rank 0][][begin-step-attempt] h = 2"]

/-- The document of that log. -/
def nestedDocument : Document where
  globals :=
    [("setup", .dict [(Step.evolveKey, .list [[(Step.levelKey, .value (.integer 0))]])])]
  steps :=
    [[(Step.levelKey, .value (.integer 1)),
      ("h", .value (.integer 1)),
      ("nls", .dict []),
      (Step.timeLevelKey 2, .list
        [[(Step.levelKey, .value (.integer 2)), ("h", .value (.integer 2))]])]]

theorem nestedLog_read : Document.ofLines {} nestedLog = .ok nestedDocument := by decide +kernel

theorem nestedLog_ne_fastEntry : ∀ record ∈ Record.readAll Payload.defaultIndicator nestedLog,
    ∀ text, record.label ≠ "begin-time-level-" ++ text ++ "-list" := by
  have hstart : ∀ record ∈ Record.readAll Payload.defaultIndicator nestedLog,
      "begin-time-level-".toList.isPrefixOf record.label.toList = false := by decide +kernel
  exact fun record hrecord => ne_fastEntry (hstart record hrecord)

theorem Document.levelsPlaced_of_ofLines_nested :
    ofLines {} nestedLog = .ok nestedDocument ∧
      (∀ record ∈ Record.readAll Payload.defaultIndicator nestedLog,
        record.label ≠ "begin-evolve-list") ∧
      (∀ record ∈ Record.readAll Payload.defaultIndicator nestedLog, ∀ text,
        record.label ≠ "begin-time-level-" ++ text ++ "-list") ∧
      nestedDocument.LevelsPlaced nestedLog (attempts {} nestedLog) := by
  have hevolve : ∀ record ∈ Record.readAll Payload.defaultIndicator nestedLog,
      record.label ≠ "begin-evolve-list" := by decide +kernel
  exact ⟨nestedLog_read, hevolve, nestedLog_ne_fastEntry,
    levelsPlaced_of_ofLines nestedLog_read hevolve nestedLog_ne_fastEntry⟩

end SolverLog
