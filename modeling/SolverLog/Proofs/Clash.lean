import SolverLog.Proofs.Ownership
import SolverLog.Proofs.Replay

/-!
# Keys that clash

A key that is set twice is an error, which names the open sections. The dictionary that has the key
already is that of the innermost open section, with one exception: a step that begins within fast
steps goes to a list of the innermost open step, and there may be a section open within that step.

* `Move.holder` — the dictionary in which a move needs a key.
* `Document.duplicateKey_held` — that dictionary has the key when the error is raised.
-/

namespace SolverLog

namespace Builder

/-- The dictionary in which a move needs a key: the one that holds the place of a section that is
opened, else the current one. -/
def Move.holder (s : State) : Move → Nat
  | enter opened => ((s.place opened).parent?).getD s.current
  | _ => s.current

variable {s last : State} {line : Nat}

/-- A place that is blocked is at a key of a dictionary that has it. -/
theorem State.mem_keys_of_blocked {place : Place} (h : s.vacancy place = .blocked) :
    ∃ parent, place.parent? = some parent ∧ place.key ∈ (s.entries parent).keys := by
  cases place with
  | topLevel => cases h
  | member parent key | element parent key =>
      refine ⟨parent, rfl, ?_⟩
      rw [← Entries.value?_isSome_iff]
      simp only [vacancy] at h
      split at h
      · cases h
      · cases h
      · next hslot => simp [Place.key, hslot]

/-- Only a step within fast steps has its place elsewhere than in the current dictionary. -/
theorem State.place_of_holder_ne {opened : Section}
    (h : Move.holder s (.enter opened) ≠ s.current) :
    opened = .step ∧ s.fastSteps ≠ 0 ∧
      s.place opened = .element s.host (Step.timeLevelKey s.fastSteps) := by
  cases opened with
  | plain name => exact absurd rfl h
  | entry list => exact absurd rfl h
  | step =>
      by_cases hframes : s.frames = []
      · simp [Move.holder, place, hframes, Place.parent?] at h
      · by_cases hfast : s.fastSteps = 0
        · simp [Move.holder, place, hframes, hfast, Place.parent?] at h
        · simp [place, hframes, hfast]

/-- A move that is refused for its key. -/
theorem Move.held_of_duplicateKey {move : Move} {key place : String}
    (h : move.apply line s = .refused (.duplicateKey line key place) last) :
    place = s.path ∧ key ∈ (s.entries (move.holder s)).keys ∧
      (move.holder s ≠ s.current → move = .enter .step ∧ s.fastSteps ≠ 0 ∧
        key = Step.timeLevelKey s.fastSteps ∧ move.holder s = s.host) := by
  cases move with
  | skip | leave | enterFast | leaveFast => simp [apply] at h
  | set name value =>
      simp only [apply] at h
      split at h
      · next slot hslot =>
          cases h
          refine ⟨rfl, ?_, fun hne => absurd rfl hne⟩
          rw [← Entries.value?_isSome_iff]
          simp [holder, hslot]
      · cases h
  | enter opened =>
      simp only [apply] at h
      split at h
      · cases h
      · cases h
      · next hblocked =>
          cases h
          obtain ⟨parent, hparent, hkey⟩ := State.mem_keys_of_blocked hblocked
          have hholder : holder s (.enter opened) = parent := by
            simp [holder, hparent]
          refine ⟨rfl, hholder ▸ hkey, ?_⟩
          intro hne
          obtain ⟨rfl, hfast, hplace⟩ := State.place_of_holder_ne hne
          rw [hplace] at hparent ⊢
          exact ⟨rfl, hfast, rfl, hholder.trans (Option.some.inj hparent).symm⟩
  | expect closed =>
      simp only [apply] at h
      split at h
      · cases h
      · split at h
        · cases h
        · cases h
  | expectFast =>
      simp only [apply] at h
      split at h
      · cases h
      · cases h

end Builder

/-- An error about a key names the open sections of the state in which it is raised. In that state
the dictionary in which the move needs the key has it already. This is the dictionary of the
innermost open section, unless the move begins a step within fast steps: then it is that of the
innermost open step. -/
theorem Document.duplicateKey_held {options : Options} {lines : List String} {line : Nat}
    {key place : String}
    (h : Document.ofLines options lines = .error (.duplicateKey line key place)) :
    ∃ move s,
      Builder.RefusedAt options.arrayIndicator lines (.duplicateKey line key place) line move s ∧
        place = s.path ∧ key ∈ (s.entries (move.holder s)).keys ∧
          (move.holder s ≠ s.current → move = .enter .step ∧ s.fastSteps ≠ 0 ∧
            key = Step.timeLevelKey s.fastSteps ∧ move.holder s = s.host) := by
  rcases Builder.refused_of_ofLines h with ⟨s, hrun⟩ | ⟨-, _, _, hunclosed⟩
  · obtain ⟨move, hrefused⟩ := Builder.exists_refusedAt hrun
    refine ⟨move, s, hrefused, ?_⟩
    have happly : move.apply line s = .refused (.duplicateKey line key place) s := by
      cases hrefused with
      | intro _ _ _ _ happly => exact happly
    exact Builder.Move.held_of_duplicateKey happly
  · cases hunclosed

/-- A log with a fast step that begins within a section of the step whose list it needs. -/
def crossingLog : List String :=
  ["[INFO][rank 0][MRI][begin-step-attempt] time-level-1 = 5",
    "[INFO][rank 0][MRI][begin-nls]",
    "[INFO][rank 0][MRI][begin-fast-steps]",
    "[INFO][rank 0][ERK][begin-step-attempt]"]

/-- The error names the section within the step, and the section does not have the key. -/
theorem Document.duplicateKey_held_crossing :
    Document.ofLines {} crossingLog =
        .error (.duplicateKey 4 "time-level-1" "step-attempt/nls") ∧
      ∃ move s,
        Builder.RefusedAt Payload.defaultIndicator crossingLog
            (.duplicateKey 4 "time-level-1" "step-attempt/nls") 4 move s ∧
          "step-attempt/nls" = s.path ∧ "time-level-1" ∈ (s.entries (move.holder s)).keys ∧
            (move.holder s ≠ s.current → move = .enter .step ∧ s.fastSteps ≠ 0 ∧
              "time-level-1" = Step.timeLevelKey s.fastSteps ∧ move.holder s = s.host) ∧
            (s.entries s.current).keys = [] := by
  have hread : Document.ofLines {} crossingLog =
      .error (.duplicateKey 4 "time-level-1" "step-attempt/nls") := by decide +kernel
  have hcurrent : (match Builder.runLines Payload.defaultIndicator 1 crossingLog .initial with
      | .refused _ s => some (s.entries s.current).keys
      | .reached _ => none) = some [] := by decide +kernel
  refine ⟨hread, ?_⟩
  obtain ⟨move, s, hrefused, hplace, hkey, hother⟩ := Document.duplicateKey_held hread
  refine ⟨move, s, hrefused, hplace, hkey, hother, ?_⟩
  rw [hrefused.runLines_eq] at hcurrent
  exact Option.some.inj hcurrent

end SolverLog
