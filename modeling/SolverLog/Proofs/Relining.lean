import SolverLog.Proofs.Behind

/-!
# The numbers of lines

Nothing that is read depends on the number of its line: the numbers only stand in the open sections
and in errors. So a log is read in the same way from other numbers on, with the numbers of the lines
changed in what comes of it.

* `State.reline`, `Outcome.reline` — a state, and an outcome, with the numbers of lines changed.
* `Move.apply_reline` — a move does the same on another line.
* `runLines_reline`, `Outcome.finish_reline` — the lines of a log, and what they come to.
-/

namespace SolverLog

namespace Builder

/-- A section that was opened on another line. -/
def Frame.reline (change : Nat → Nat) (frame : Frame) : Frame :=
  { frame with line := change frame.line }

/-- A state whose sections were opened on other lines. -/
def State.reline (change : Nat → Nat) (s : State) : State :=
  { s with frames := s.frames.map (Frame.reline change) }

/-- An outcome with the numbers of lines changed. -/
def Outcome.reline (change : Nat → Nat) : Outcome → Outcome
  | reached s => .reached (s.reline change)
  | refused error last => .refused (error.mapLine change) (last.reline change)

variable {change : Nat → Nat} {s : State}

namespace State

@[simp] theorem entries_reline (number : Nat) : (s.reline change).entries number = s.entries number :=
  rfl

@[simp] theorem current_reline : (s.reline change).current = s.current := by
  unfold current reline
  cases s.frames <;> rfl

@[simp] theorem depth_reline : (s.reline change).depth = s.depth := by
  unfold depth reline
  cases s.frames <;> rfl

@[simp] theorem host_reline : (s.reline change).host = s.host := by
  have hstep : (fun frame : Frame => decide (frame.opened = .step)) ∘ Frame.reline change =
      fun frame => decide (frame.opened = .step) := rfl
  unfold host
  rw [current_reline]
  unfold reline
  rw [List.find?_map, hstep]
  cases s.frames.find? fun frame => decide (frame.opened = .step) <;> rfl

@[simp] theorem path_reline : (s.reline change).path = s.path := by
  unfold path reline
  cases s.frames with
  | nil => rfl
  | cons frame outer =>
      simp only [List.map_cons, List.reverse_cons, List.map_append, List.map_reverse, List.map_map]
      rfl

@[simp] theorem place_reline (opened : Section) : (s.reline change).place opened = s.place opened := by
  have hframes : (s.reline change).frames = [] ↔ s.frames = [] := List.map_eq_nil_iff
  have hfast : (s.reline change).fastSteps = s.fastSteps := rfl
  cases opened <;> simp only [place, current_reline, host_reline, hframes, hfast]

@[simp] theorem vacancy_reline (place : Place) : (s.reline change).vacancy place = s.vacancy place := by
  cases place <;> rfl

theorem addAt_reline (fresh : Entries Slot) (place : Place) :
    (s.reline change).addAt fresh place = (s.addAt fresh place).reline change := by
  cases place <;> rfl

theorem enter_reline (line : Nat) (opened : Section) (number : Nat) :
    (s.reline change).enter (change line) opened number =
      (s.enter line opened number).reline change := by
  unfold enter
  rw [depth_reline]
  simp [reline, Frame.reline]

end State

/-- A move does the same on another line. -/
theorem Move.apply_reline (change : Nat → Nat) (line : Nat) (move : Move) (s : State) :
    move.apply (change line) (s.reline change) = (move.apply line s).reline change := by
  cases move with
  | skip | enterFast | leaveFast => rfl
  | leave =>
      simp only [apply, Outcome.reline, State.reline, List.map_tail]
  | set key value =>
      simp only [apply, State.entries_reline, State.current_reline, State.path_reline]
      cases (s.entries s.current).value? key <;> rfl
  | enter opened =>
      simp only [apply, State.place_reline, State.vacancy_reline, State.path_reline]
      cases s.vacancy (s.place opened) with
      | free =>
          simp only [Outcome.reline, ← State.enter_reline, ← State.addAt_reline]
          rfl
      | held number => simp only [Outcome.reline, State.enter_reline]
      | blocked => rfl
  | expect closed =>
      simp only [apply]
      unfold State.reline
      cases hframes : s.frames with
      | nil => simp [Outcome.reline, State.reline, StructureError.mapLine, hframes]
      | cons frame outer =>
          simp only [List.map_cons]
          split <;> simp_all [Outcome.reline, State.reline, StructureError.mapLine, Frame.reline]
  | expectFast =>
      simp only [apply]
      have hfast : (s.reline change).fastSteps = s.fastSteps := rfl
      rw [hfast]
      split <;> rfl

/-- The moves of a line do the same on another line. -/
theorem run_reline (change : Nat → Nat) (line : Nat) (moves : List Move) (s : State) :
    run (change line) moves (s.reline change) = (run line moves s).reline change := by
  induction moves generalizing s with
  | nil => rfl
  | cons move rest ih =>
      simp only [run, Move.apply_reline]
      cases move.apply line s with
      | reached next => exact ih next
      | refused error last => rfl

/-- The lines of a log do the same from another number on. -/
theorem runLines_reline {number shift : Nat} (hchange : ∀ line, number ≤ line → change line = line + shift)
    (indicator : String) (lines : List String) (s : State) :
    runLines indicator (number + shift) lines (s.reline change) =
      (runLines indicator number lines s).reline change := by
  induction lines generalizing number s with
  | nil => rfl
  | cons line following ih =>
      have hnext : ∀ line, number + 1 ≤ line → change line = line + shift :=
        fun line hline => hchange line (by omega)
      simp only [runLines]
      rw [← hchange number (Nat.le_refl number), run_reline]
      cases run number (Move.ofLine indicator line following) s with
      | reached next =>
          rw [hchange number (Nat.le_refl number)]
          have hrest := ih hnext next
          rw [Nat.add_right_comm] at hrest
          exact hrest
      | refused error last => rfl

/-- What comes of a log, with the numbers of lines changed. -/
theorem Outcome.finish_reline (change : Nat → Nat) (options : Options) (outcome : Outcome) :
    (outcome.reline change).finish options =
      (outcome.finish options).mapError (StructureError.mapLine change) := by
  cases outcome with
  | refused error last => rfl
  | reached s =>
      obtain ⟨dicts, steps, frames, fastSteps⟩ := s
      cases frames with
      | nil => rfl
      | cons frame outer =>
          simp only [reline, finish, State.finish, State.reline, List.map_cons]
          split <;> rfl

end Builder

end SolverLog
