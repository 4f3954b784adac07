import SolverLog.Log
import SolverLog.Proofs.Store

/-!
# Moves as transitions

`Transition line s move s'` says everything that a move does when it is carried out, guards
included, with one case for each effect on the state. What every transition preserves holds of every
state that a log reaches (`runLines_invariant`).
-/

namespace SolverLog.Builder

/-- A move on a line leads from a state to another one. -/
inductive Transition (line : Nat) (s : State) : Move → State → Prop where
  | skip : Transition line s .skip s
  /-- The key is not set yet. -/
  | set {key : String} {value : Value} (hnew : (s.entries s.current).value? key = none) :
      Transition line s (.set key value) (s.set s.current key (.value value))
  /-- The section gets a new dictionary. -/
  | enterNew {opened : Section} (hfree : s.vacancy (s.place opened) = .free) :
      Transition line s (.enter opened)
        ((s.addAt (s.newEntries opened) (s.place opened)).enter line opened s.dicts.size)
  /-- The section is one that was open before. -/
  | enterAgain {opened : Section} {number : Nat}
      (hheld : s.vacancy (s.place opened) = .held number) :
      Transition line s (.enter opened) (s.enter line opened number)
  | expect {closed : Section} {frame : Frame} {outer : List Frame}
      (hframes : s.frames = frame :: outer) (hopened : frame.opened = closed) :
      Transition line s (.expect closed) s
  | leave : Transition line s .leave { s with frames := s.frames.tail }
  | enterFast : Transition line s .enterFast { s with fastSteps := s.fastSteps + 1 }
  | expectFast (hopen : s.fastSteps ≠ 0) : Transition line s .expectFast s
  | leaveFast : Transition line s .leaveFast { s with fastSteps := s.fastSteps - 1 }

/-- Opening a section changes the number of open regions no more than fields do. -/
theorem Transition.fastSteps_enter {line : Nat} {opened : Section} {s s' : State}
    (h : Transition line s (.enter opened) s') : s'.fastSteps = s.fastSteps := by
  cases h with
  | enterNew => exact State.fastSteps_addAt ..
  | enterAgain => rfl

/-- A section that is opened becomes the innermost one. -/
theorem Transition.frames_enter {line : Nat} {opened : Section} {s s' : State}
    (h : Transition line s (.enter opened) s') :
    ∃ dict, s'.frames = ⟨dict, opened, s.depth + 1, line⟩ :: s.frames := by
  cases h with
  | enterNew =>
      refine ⟨s.dicts.size, ?_⟩
      simp only [State.enter, State.frames_addAt, State.depth_addAt]
  | @enterAgain _ number => exact ⟨number, rfl⟩

/-- A move that is carried out is a transition. -/
theorem Transition.of_apply {line : Nat} {move : Move} {s s' : State}
    (h : move.apply line s = .reached s') : Transition line s move s' := by
  cases move with
  | skip => cases h; exact .skip
  | set key value =>
      simp only [Move.apply] at h
      split at h
      · cases h
      · next hnew => cases h; exact .set hnew
  | enter opened =>
      simp only [Move.apply] at h
      split at h
      · next hfree => cases h; exact .enterNew hfree
      · next number hheld => cases h; exact .enterAgain hheld
      · cases h
  | expect closed =>
      simp only [Move.apply] at h
      split at h
      · cases h
      · next frame outer hframes =>
          split at h
          · next hopened => cases h; exact .expect hframes hopened
          · cases h
  | leave => cases h; exact .leave
  | enterFast => cases h; exact .enterFast
  | expectFast =>
      simp only [Move.apply] at h
      split at h
      · cases h
      · next hopen => cases h; exact .expectFast hopen
  | leaveFast => cases h; exact .leaveFast

/-! ## Runs -/

theorem run_append (line : Nat) (first second : List Move) (s : State) :
    run line (first ++ second) s =
      match run line first s with
      | .reached s' => run line second s'
      | .refused error last => .refused error last := by
  induction first generalizing s with
  | nil => rfl
  | cons move rest ih =>
      simp only [List.cons_append, run]
      split
      · exact ih _
      · rfl

/-- What every transition preserves is preserved by the moves of a line. -/
theorem run_invariant {P : State → Prop} {line : Nat}
    (hstep : ∀ {s move s'}, P s → Transition line s move s' → P s') {moves : List Move}
    {s s' : State} (hs : P s) (h : run line moves s = .reached s') : P s' := by
  induction moves generalizing s with
  | nil => cases h; exact hs
  | cons move rest ih =>
      simp only [run] at h
      split at h
      · next next happly => exact ih (hstep hs (.of_apply happly)) h
      · cases h

/-- The moves that set fields one after the other. -/
def Move.sets (fields : Payload) : List Move :=
  fields.map fun (key, value) => .set key value

/-- The moves of a record, by what its label marks. -/
theorem Move.ofRecord_eq (record : Record) :
    Move.ofRecord record =
      match Marker.ofLabel record.label with
      | .remark => Move.sets record.payload
      | .opens opened => .enter opened :: Move.sets record.payload
      | .closes closed => .expect closed :: Move.sets record.payload ++ [.leave]
      | .beginsFastSteps => Move.sets record.payload ++ [.enterFast]
      | .endsFastSteps => .expectFast :: Move.sets record.payload ++ [.leaveFast] :=
  rfl

/-- A line of commentary is skipped. -/
theorem Move.ofLine_of_commentary {line : String} (hline : isRecordLine line = false)
    (indicator : String) (following : List String) :
    Move.ofLine indicator line following = [.skip] := by
  simp only [Move.ofLine, Record.read?, isRecordLine_eq_false_iff.mp hline, Option.map_none]

/-- Setting fields changes dictionaries only, or finds a key that is there already. -/
theorem run_sets (line : Nat) (fields : Payload) (s : State) :
    (∃ s', run line (Move.sets fields) s = .reached s' ∧ s'.frames = s.frames ∧ s'.steps = s.steps ∧
        s'.fastSteps = s.fastSteps) ∨
      ∃ key last, run line (Move.sets fields) s = .refused (.duplicateKey line key s.path) last := by
  induction fields generalizing s with
  | nil => exact Or.inl ⟨s, rfl, rfl, rfl, rfl⟩
  | cons field rest ih =>
      rcases field with ⟨key, value⟩
      -- The first key that is there already ends it.
      cases hkey : (s.entries s.current).value? key with
      | some slot => exact Or.inr ⟨key, s, by simp [Move.sets, run, Move.apply, hkey]⟩
      | none =>
          have hrun : run line (Move.sets ((key, value) :: rest)) s =
              run line (Move.sets rest) (s.set s.current key (.value value)) := by
            simp [Move.sets, run, Move.apply, hkey]
          rw [hrun]
          exact ih (s.set s.current key (.value value))

/-- Fields that are set change dictionaries only. -/
theorem unchanged_of_run_sets {line : Nat} {fields : Payload} {s s' : State}
    (h : run line (Move.sets fields) s = .reached s') :
    s'.frames = s.frames ∧ s'.steps = s.steps ∧ s'.fastSteps = s.fastSteps := by
  rcases run_sets line fields s with ⟨last, hrun, hsame⟩ | ⟨key, last, hrun⟩
  · rw [hrun] at h
    cases h
    exact hsame
  · rw [hrun] at h
    cases h

theorem run_singleton {line : Nat} {move : Move} {s s' : State}
    (h : run line [move] s = .reached s') : Transition line s move s' := by
  simp only [run] at h
  split at h
  · next next happly =>
      cases h
      exact .of_apply happly
  · cases h

/-- Moves that are carried out one after the other are carried out each in its turn. -/
theorem run_append_reached {line : Nat} {first second : List Move} {s s' : State}
    (h : run line (first ++ second) s = .reached s') :
    ∃ middle, run line first s = .reached middle ∧ run line second middle = .reached s' := by
  rw [run_append] at h
  split at h
  · next middle hfirst => exact ⟨middle, hfirst, h⟩
  · cases h

theorem run_cons_reached {line : Nat} {move : Move} {rest : List Move} {s s' : State}
    (h : run line (move :: rest) s = .reached s') :
    ∃ middle, Transition line s move middle ∧ run line rest middle = .reached s' := by
  rcases @run_append_reached line [move] rest s s' h with ⟨middle, hfirst, hrest⟩
  exact ⟨middle, run_singleton hfirst, hrest⟩

/-! ## Opening a section -/

theorem run_enter_free {line : Nat} {opened : Section} {s : State}
    (hfree : s.vacancy (s.place opened) = .free) :
    run line [.enter opened] s =
      .reached ((s.addAt (s.newEntries opened) (s.place opened)).enter line opened s.dicts.size) := by
  simp [run, Move.apply, hfree]

theorem run_enter_held {line number : Nat} {opened : Section} {s : State}
    (hheld : s.vacancy (s.place opened) = .held number) :
    run line [.enter opened] s = .reached (s.enter line opened number) := by
  simp [run, Move.apply, hheld]

theorem run_enter_blocked {line : Nat} {opened : Section} {s : State}
    (hblocked : s.vacancy (s.place opened) = .blocked) :
    run line [.enter opened] s = .refused (.duplicateKey line (s.place opened).key s.path) s := by
  simp [run, Move.apply, hblocked]

/-! ## Records -/

/-- Everything that a record does when its moves are carried out. -/
inductive RecordStep (line : Nat) (record : Record) (s s' : State) : Prop where
  | remark (hmarker : Marker.ofLabel record.label = .remark)
      (hsets : run line (Move.sets record.payload) s = .reached s')
  | opens {opened : Section} {entered : State}
      (hmarker : Marker.ofLabel record.label = .opens opened)
      (henter : Transition line s (.enter opened) entered)
      (hsets : run line (Move.sets record.payload) entered = .reached s')
  | closes {closed : Section} {frame : Frame} {outer : List Frame} {filled : State}
      (hmarker : Marker.ofLabel record.label = .closes closed)
      (hframes : s.frames = frame :: outer) (hopened : frame.opened = closed)
      (hsets : run line (Move.sets record.payload) s = .reached filled)
      (hleave : s' = { filled with frames := filled.frames.tail })
  | beginsFastSteps {filled : State}
      (hmarker : Marker.ofLabel record.label = .beginsFastSteps)
      (hsets : run line (Move.sets record.payload) s = .reached filled)
      (hfast : s' = { filled with fastSteps := filled.fastSteps + 1 })
  | endsFastSteps {filled : State}
      (hmarker : Marker.ofLabel record.label = .endsFastSteps)
      (hopen : s.fastSteps ≠ 0)
      (hsets : run line (Move.sets record.payload) s = .reached filled)
      (hfast : s' = { filled with fastSteps := filled.fastSteps - 1 })

theorem RecordStep.of_run {line : Nat} {record : Record} {s s' : State}
    (h : run line (Move.ofRecord record) s = .reached s') : RecordStep line record s s' := by
  rw [Move.ofRecord_eq] at h
  cases hmarker : Marker.ofLabel record.label with
  | remark =>
      rw [hmarker] at h
      exact .remark hmarker h
  | opens opened =>
      rw [hmarker] at h
      rcases run_cons_reached h with ⟨entered, henter, hsets⟩
      exact .opens hmarker henter hsets
  | closes closed =>
      rw [hmarker] at h
      rcases run_cons_reached h with ⟨checked, hexpect, hrest⟩
      rcases run_append_reached hrest with ⟨filled, hsets, hleave⟩
      cases hexpect with
      | expect hframes hopened =>
          cases run_singleton hleave
          exact .closes hmarker hframes hopened hsets rfl
  | beginsFastSteps =>
      rw [hmarker] at h
      rcases run_append_reached h with ⟨filled, hsets, hfast⟩
      cases run_singleton hfast
      exact .beginsFastSteps hmarker hsets rfl
  | endsFastSteps =>
      rw [hmarker] at h
      rcases run_cons_reached h with ⟨checked, hexpect, hrest⟩
      rcases run_append_reached hrest with ⟨filled, hsets, hfast⟩
      cases hexpect with
      | expectFast hopen =>
          cases run_singleton hfast
          exact .endsFastSteps hmarker hopen hsets rfl

/-- A line that is carried out is commentary, which changes nothing, or a record. -/
theorem recordStep_of_run_ofLine {number : Nat} {indicator line : String} {following : List String}
    {s s' : State} (h : run number (Move.ofLine indicator line following) s = .reached s') :
    Record.read? indicator line following = none ∧ s' = s ∨
      ∃ record, Record.read? indicator line following = some record ∧
        RecordStep number record s s' := by
  unfold Move.ofLine at h
  cases hread : Record.read? indicator line following with
  | none =>
      rw [hread] at h
      cases h
      exact .inl ⟨rfl, rfl⟩
  | some record =>
      rw [hread] at h
      exact .inr ⟨record, rfl, .of_run h⟩

theorem runLines_cons_reached {number : Nat} {indicator line : String} {following : List String}
    {s s' : State} (h : runLines indicator number (line :: following) s = .reached s') :
    ∃ middle, run number (Move.ofLine indicator line following) s = .reached middle ∧
      runLines indicator (number + 1) following middle = .reached s' := by
  simp only [runLines] at h
  split at h
  · next middle hline => exact ⟨middle, hline, h⟩
  · cases h

/-- What every transition preserves is preserved by the lines of a log. -/
theorem runLines_invariant {P : State → Prop}
    (hstep : ∀ {line s move s'}, P s → Transition line s move s' → P s') {indicator : String}
    {number : Nat} {lines : List String} {s s' : State} (hs : P s)
    (h : runLines indicator number lines s = .reached s') : P s' := by
  induction lines generalizing number s with
  | nil => cases h; exact hs
  | cons line following ih =>
      obtain ⟨middle, hline, hrest⟩ := runLines_cons_reached h
      exact ih (run_invariant hstep hs hline) hrest

/-- A document is that of the state that its log reaches. -/
theorem reached_of_ofLines {options : Options} {lines : List String} {document : Document}
    (h : Document.ofLines options lines = .ok document) :
    ∃ s, runLines options.arrayIndicator 1 lines .initial = .reached s ∧ document = s.document := by
  unfold Document.ofLines at h
  cases hrun : runLines options.arrayIndicator 1 lines .initial with
  | refused error last =>
      rw [hrun] at h
      cases h
  | reached s =>
      rw [hrun] at h
      refine ⟨s, rfl, ?_⟩
      -- A section that is still open is an error, or it is kept as it is.
      simp only [Outcome.finish, State.finish] at h
      split at h
      · split at h
        · cases h
        · cases h
          rfl
      · cases h
        rfl

end SolverLog.Builder
