import SolverLog.Proofs.Transition

/-!
# Reading a log in parts

Arrays stand on the lines that follow a record line, so the moves of a line depend on what follows
it. The lines of a log are therefore turned into their moves first (`Move.ofLines`), with the lines
after them in view, and the moves are carried out line by line (`runMoves`).

* `runLines_append` — a log in two parts, of which the first has the second one in view.
* `RefusedAt` — the line, the move and the state at which reading a log ends with an error.
* `exists_refusedAt`, `RefusedAt.runLines_eq` — every error comes from such a line, and only from it.
-/

namespace SolverLog

/-- The line that an error names. -/
def StructureError.line : StructureError → Nat
  | duplicateKey line _ _ => line
  | mismatchedEnd line _ _ => line
  | unexpectedEnd line _ => line
  | unbalancedFastSteps line => line
  | unclosedSection line _ => line

namespace Builder

/-- The moves of the lines of a log, line by line, with more lines after them. -/
def Move.ofLines (indicator : String) (more : List String) : List String → List (List Move)
  | [] => []
  | line :: following =>
    Move.ofLine indicator line (following ++ more) :: Move.ofLines indicator more following

/-- Carries out the moves of lines from the line of that number on, up to a move that is refused. -/
def runMoves : Nat → List (List Move) → State → Outcome
  | _, [], state => .reached state
  | number, moves :: rest, state =>
    match run number moves state with
    | .reached next => runMoves (number + 1) rest next
    | .refused error last => .refused error last

variable {indicator : String} {number : Nat} {lines : List String} {s : State}
  {error : StructureError} {last : State}

@[simp] theorem Move.length_ofLines (indicator : String) (more lines : List String) :
    (Move.ofLines indicator more lines).length = lines.length := by
  induction lines with
  | nil => rfl
  | cons line following ih => simp [Move.ofLines, ih]

theorem Move.ofLines_append (indicator : String) (more lines others : List String) :
    Move.ofLines indicator more (lines ++ others) =
      Move.ofLines indicator (others ++ more) lines ++ Move.ofLines indicator more others := by
  induction lines with
  | nil => rfl
  | cons line following ih => simp [Move.ofLines, ih]

theorem runLines_eq_runMoves (indicator : String) (number : Nat) (lines : List String) (s : State) :
    runLines indicator number lines s = runMoves number (Move.ofLines indicator [] lines) s := by
  induction lines generalizing number s with
  | nil => rfl
  | cons line following ih =>
      simp only [runLines, Move.ofLines, runMoves, List.append_nil]
      cases run number (Move.ofLine indicator line following) s with
      | reached next => exact ih (number + 1) next
      | refused error last => rfl

theorem runMoves_append (number : Nat) (first second : List (List Move)) (s : State) :
    runMoves number (first ++ second) s =
      match runMoves number first s with
      | .reached next => runMoves (number + first.length) second next
      | .refused error last => .refused error last := by
  induction first generalizing number s with
  | nil => rfl
  | cons moves rest ih =>
      simp only [List.cons_append, runMoves, List.length_cons]
      split
      · rw [ih, Nat.add_right_comm, Nat.add_assoc]
      · rfl

/-- A log in two parts is read one part after the other, if the first has the second one in view. -/
theorem runLines_append (indicator : String) (number : Nat) (lines more : List String) (s : State) :
    runLines indicator number (lines ++ more) s =
      match runMoves number (Move.ofLines indicator more lines) s with
      | .reached next => runLines indicator (number + lines.length) more next
      | .refused error last => .refused error last := by
  rw [runLines_eq_runMoves, Move.ofLines_append, runMoves_append, List.append_nil,
    Move.length_ofLines]
  split
  · rw [runLines_eq_runMoves]
  · rfl

/-- What every transition preserves is preserved by the moves of lines. -/
theorem runMoves_invariant {P : State → Prop}
    (hstep : ∀ {line s move s'}, P s → Transition line s move s' → P s')
    {batches : List (List Move)} {s' : State} (hs : P s)
    (h : runMoves number batches s = .reached s') : P s' := by
  induction batches generalizing number s with
  | nil => cases h; exact hs
  | cons moves rest ih =>
      simp only [runMoves] at h
      split at h
      · next next hrun => exact ih (run_invariant hstep hs hrun) h
      · cases h

/-! ## Where reading ends with an error -/

/-- An error names the line on which a move is refused. -/
theorem Move.line_of_refused {line : Nat} {move : Move}
    (h : move.apply line s = .refused error last) : error.line = line := by
  cases move with
  | skip | leave | enterFast | leaveFast => simp [apply] at h
  | set key value =>
      simp only [apply] at h
      split at h
      · cases h; rfl
      · cases h
  | enter opened =>
      simp only [apply] at h
      split at h
      · cases h
      · cases h
      · cases h; rfl
  | expect closed =>
      simp only [apply] at h
      split at h
      · cases h; rfl
      · split at h
        · cases h
        · cases h; rfl
  | expectFast =>
      simp only [apply] at h
      split at h
      · cases h; rfl
      · cases h

/-- Of the moves of a line that is refused, those before one are carried out, and that one is
refused. -/
theorem exists_of_run_refused {line : Nat} {moves : List Move}
    (h : run line moves s = .refused error last) :
    ∃ done move rest, moves = done ++ move :: rest ∧ run line done s = .reached last ∧
      move.apply line last = .refused error last := by
  induction moves generalizing s with
  | nil => cases h
  | cons move rest ih =>
      simp only [run] at h
      split at h
      · next next happly =>
          obtain ⟨done, refused, rest', rfl, hdone, hrefused⟩ := ih h
          refine ⟨move :: done, refused, rest', rfl, ?_, hrefused⟩
          simp only [run, happly, hdone]
      · next error' last' happly =>
          cases h
          have hlast : last = s := Move.apply_refused happly
          subst hlast
          exact ⟨[], move, rest, rfl, rfl, happly⟩

theorem line_of_run_refused {line : Nat} {moves : List Move}
    (h : run line moves s = .refused error last) : error.line = line := by
  obtain ⟨_, _, _, _, _, hrefused⟩ := exists_of_run_refused h
  exact Move.line_of_refused hrefused

/-- Of the lines of a log that is refused, those before one are carried out, and that one is
refused. -/
theorem exists_of_runLines_refused (h : runLines indicator number lines s = .refused error last) :
    ∃ before line following start, lines = before ++ line :: following ∧
      runMoves number (Move.ofLines indicator (line :: following) before) s = .reached start ∧
      run (number + before.length) (Move.ofLine indicator line following) start =
        .refused error last := by
  induction lines generalizing number s with
  | nil => cases h
  | cons line following ih =>
      simp only [runLines] at h
      split at h
      · next next hrun =>
          obtain ⟨before, refused, following', start, rfl, hstart, hrefused⟩ := ih h
          refine ⟨line :: before, refused, following', start, rfl, ?_, ?_⟩
          · simp only [Move.ofLines, runMoves, hrun, hstart]
          · rwa [List.length_cons, ← Nat.add_assoc, Nat.add_right_comm]
      · next error' last' hrun =>
          cases h
          exact ⟨[], line, following, s, rfl, rfl, hrun⟩

/-- Reading the lines of a log ends with an error at a move of the line of that number: the lines
before it are carried out, and of its own moves those before this one. -/
inductive RefusedAt (indicator : String) (lines : List String) (error : StructureError) :
    Nat → Move → State → Prop where
  | intro {before following : List String} {line : String} {done rest : List Move} {move : Move}
      {start s : State} (hlines : lines = before ++ line :: following)
      (hbefore : runMoves 1 (Move.ofLines indicator (line :: following) before) .initial =
        .reached start)
      (hmoves : Move.ofLine indicator line following = done ++ move :: rest)
      (hdone : run (before.length + 1) done start = .reached s)
      (hrefused : move.apply (before.length + 1) s = .refused error s) :
      RefusedAt indicator lines error (before.length + 1) move s

/-- Every error comes from a move that is refused, on the line that it names. -/
theorem exists_refusedAt (h : runLines indicator 1 lines .initial = .refused error last) :
    ∃ move, RefusedAt indicator lines error error.line move last := by
  obtain ⟨before, line, following, start, hlines, hbefore, hrun⟩ := exists_of_runLines_refused h
  rw [Nat.add_comm] at hrun
  obtain ⟨done, move, rest, hmoves, hdone, hrefused⟩ := exists_of_run_refused hrun
  have hline : error.line = before.length + 1 := Move.line_of_refused hrefused
  rw [hline]
  exact ⟨move, .intro hlines hbefore hmoves hdone hrefused⟩

/-- Reading the log ends in the state in which the move is refused. -/
theorem RefusedAt.runLines_eq {move : Move} (h : RefusedAt indicator lines error number move s) :
    runLines indicator 1 lines .initial = .refused error s := by
  obtain @⟨before, following, line, done, rest, move, start, s, rfl, hbefore, hmoves, hdone,
    hrefused⟩ := h
  have hrun : run (before.length + 1) (Move.ofLine indicator line following) start =
      .refused error s := by
    rw [hmoves, run_append, hdone]
    simp only [run, hrefused]
  rw [runLines_append, hbefore]
  show runLines indicator (1 + before.length) (line :: following) start = .refused error s
  rw [runLines, Nat.add_comm, hrun]

theorem ofLines_of_refused {options : Options}
    (h : runLines options.arrayIndicator 1 lines .initial = .refused error last) :
    Document.ofLines options lines = .error error := by
  unfold Document.ofLines
  rw [h]
  rfl

/-- Where sections may stay open, every log that is carried out has a document. -/
theorem ofLines_of_reached {options : Options} (hopen : options.requireClosed = false)
    (h : runLines options.arrayIndicator 1 lines .initial = .reached s) :
    Document.ofLines options lines = .ok s.document := by
  unfold Document.ofLines
  rw [h]
  simp only [Outcome.finish, State.finish]
  split
  · simp [hopen]
  · rfl

/-- A log without a document either has a move that is refused, or has to close a section. -/
theorem refused_of_ofLines {options : Options}
    (h : Document.ofLines options lines = .error error) :
    (∃ s, runLines options.arrayIndicator 1 lines .initial = .refused error s) ∨
      options.requireClosed = true ∧ ∃ line name, error = .unclosedSection line name := by
  unfold Document.ofLines at h
  cases hrun : runLines options.arrayIndicator 1 lines .initial with
  | refused error' s =>
      rw [hrun] at h
      cases h
      exact Or.inl ⟨s, rfl⟩
  | reached s =>
      rw [hrun] at h
      simp only [Outcome.finish, State.finish] at h
      split at h
      · split at h
        · next frame outer hframes hclosed =>
            cases h
            exact Or.inr ⟨hclosed, _, _, rfl⟩
        · cases h
      · cases h

end Builder

end SolverLog
