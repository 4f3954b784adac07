import Mathlib.Data.List.DropRight
import SolverLog.Proofs.Reopening

/-!
# Commentary in a log

A line of commentary is passed over, unless an array takes it. So one that no array can take is put
into a log, or taken out of it, without a difference: only the numbers of the lines behind it change.

* `ArraysEnded` — lines at whose end no array is going on.
* `finish_runLines_succ` — lines that are read one line later.
* `Document.ofLines_commentary` — a log with a line of commentary, and the log without it.
-/

namespace SolverLog

variable {indicator : String} {lines more : List String}

/-- No array is going on at the end of some lines: their last record has no array, or a blank line
stands behind it. -/
def ArraysEnded (indicator : String) (lines : List String) : Prop :=
  (∀ record ∈ (Record.readAll indicator lines).getLast?,
      ∀ key ∈ record.payload.keys, ¬Payload.ArrayKey indicator key) ∨
    ∃ line ∈ lines.rtakeWhile fun line => !isRecordLine line, Text.trim line.toList = []

instance (indicator : String) (lines : List String) : Decidable (ArraysEnded indicator lines) :=
  inferInstanceAs (Decidable (_ ∨ _))

/-- The number of a line when another one is put in and gets the number `position`. -/
def lineInserted (position line : Nat) : Nat :=
  if line < position then line else line + 1

/-- The number of a line when the one with the number `position` is taken out. -/
def lineRemoved (position line : Nat) : Nat :=
  if position < line then line - 1 else line

theorem lineRemoved_lineInserted (position line : Nat) :
    lineRemoved position (lineInserted position line) = line := by
  unfold lineRemoved lineInserted
  split <;> split <;> omega

theorem StructureError.mapLine_mapLine {change change' : Nat → Nat}
    (h : ∀ line, change' (change line) = line) (error : StructureError) :
    (error.mapLine change).mapLine change' = error := by
  cases error <;> simp only [mapLine, h]

/-- An error stays as it is if its line keeps its number. -/
theorem StructureError.mapLine_eq_self {change : Nat → Nat} {error : StructureError}
    (h : change error.line = error.line) : error.mapLine change = error := by
  cases error <;> simp_all [mapLine, StructureError.line]

namespace Builder

variable {s : State} {number : Nat} {error : StructureError} {last : State}

/-! ## The lines before -/

/-- Commentary is passed over, whatever follows it. -/
theorem Move.ofLines_of_commentary (h : ∀ line ∈ lines, isRecordLine line = false) :
    Move.ofLines indicator more lines = lines.map fun _ => [.skip] := by
  induction lines with
  | nil => rfl
  | cons line following ih =>
      rw [List.forall_mem_cons] at h
      simp only [Move.ofLines, List.map_cons, ih h.2, Move.ofLine_of_commentary h.1]

/-- Lines at whose end no array is going on are carried out alike, whatever follows. -/
theorem Move.ofLines_of_arraysEnded (h : ArraysEnded indicator lines) (more : List String) :
    Move.ofLines indicator more lines = Move.ofLines indicator [] lines := by
  rcases h with hscalar | ⟨blank, hblank, hempty⟩
  · exact Move.ofLines_of_noArrayAcross (.inr hscalar)
  · -- The blank line ends what stands before it, and only commentary stands behind it.
    have hcommentary : ∀ line ∈ lines.rtakeWhile fun line => !isRecordLine line,
        isRecordLine line = false := by
      intro line hline
      simpa using List.mem_rtakeWhile_imp hline
    obtain ⟨first, rest, hrest⟩ := List.append_of_mem hblank
    have hskips : ∀ line ∈ blank :: rest, isRecordLine line = false := by
      intro line hline
      rw [hrest] at hcommentary
      exact hcommentary line (List.mem_append_right first hline)
    obtain ⟨front, hfront⟩ : ∃ front, lines = front ++ blank :: rest := by
      obtain ⟨start, hstart⟩ := List.rtakeWhile_suffix (fun line => !isRecordLine line) lines
      exact ⟨start ++ first, by rw [List.append_assoc, ← hrest, hstart]⟩
    have hafresh (more : List String) : StartsAfresh (blank :: rest ++ more) := by
      rintro line ⟨⟩
      exact .inl hempty
    have hmoves (more : List String) : Move.ofLines indicator more (front ++ blank :: rest) =
        Move.ofLines indicator [] front ++ (blank :: rest).map fun _ => [.skip] := by
      rw [Move.ofLines_append, Move.ofLines_of_commentary hskips,
        Move.ofLines_of_noArrayAcross (.inl (hafresh more))]
    rw [hfront, hmoves, hmoves]

/-- What is refused is on one of the lines that are carried out. -/
theorem line_lt_of_runMoves_refused {batches : List (List Move)}
    (h : runMoves number batches s = .refused error last) :
    error.line < number + batches.length := by
  induction batches generalizing number s with
  | nil => cases h
  | cons moves rest ih =>
      rw [List.length_cons]
      simp only [runMoves] at h
      split at h
      · have hrest := ih h
        omega
      · next error' last' hrun =>
          cases h
          rw [line_of_run_refused hrun]
          omega

/-! ## The lines behind -/

/-- Sections that were opened before a line keep their lines when the numbers from that line on
change. -/
theorem State.reline_of_stacked (h : Stacked s number s.frames) {change : Nat → Nat}
    (hchange : ∀ line < number, change line = line) : s.reline change = s := by
  have hframes : s.frames.map (Frame.reline change) = s.frames := by
    conv_rhs => rw [← List.map_id s.frames]
    refine List.map_congr_left fun frame hframe => ?_
    rw [Frame.reline, hchange frame.line (h.line_lt frame hframe), id_eq]
  rw [State.reline, hframes]

/-- Lines that are read one line later come to the same, with later numbers in what they say of
themselves. -/
theorem finish_runLines_succ (hstacked : Stacked s number s.frames) (options : Options)
    (lines : List String) :
    (runLines options.arrayIndicator (number + 1) lines s).finish options =
      ((runLines options.arrayIndicator number lines s).finish options).mapError
        (StructureError.mapLine (lineInserted number)) := by
  have hlater : ∀ line, number ≤ line → lineInserted number line = line + 1 := by
    intro line hline
    exact if_neg (by omega)
  have hearlier : ∀ line < number, lineInserted number line = line := fun line hline => if_pos hline
  rw [← Outcome.finish_reline, ← runLines_reline hlater, State.reline_of_stacked hstacked hearlier]

end Builder

namespace Document

open Builder

variable {options : Options} {before after : List String} {line : String}

/-- Commentary that no array can take makes no difference. A log in which such a line is taken out has
the same document, or the same error with a number one less if it is greater than that of the line; and
a log in which it is put in has the same document, or the same error with a number one greater if the
error is on one of the lines behind. -/
theorem ofLines_commentary (hline : isRecordLine line = false)
    (hended : ArraysEnded options.arrayIndicator before) :
    ofLines options (before ++ after) =
        (ofLines options (before ++ line :: after)).mapError
          (StructureError.mapLine (lineRemoved (before.length + 1))) ∧
      ofLines options (before ++ line :: after) =
        (ofLines options (before ++ after)).mapError
          (StructureError.mapLine (lineInserted (before.length + 1))) := by
  have hinserted : ofLines options (before ++ line :: after) =
      (ofLines options (before ++ after)).mapError
        (StructureError.mapLine (lineInserted (before.length + 1))) := by
    unfold ofLines
    rw [runLines_append, runLines_append, Move.ofLines_of_arraysEnded hended (line :: after),
      Move.ofLines_of_arraysEnded hended after]
    cases hbefore : runMoves 1 (Move.ofLines options.arrayIndicator [] before) .initial with
    | refused error last =>
        have hlt := line_lt_of_runMoves_refused hbefore
        rw [Move.length_ofLines] at hlt
        have hsame : lineInserted (before.length + 1) error.line = error.line := if_pos (by omega)
        simp only [Outcome.finish, Except.mapError, StructureError.mapLine_eq_self hsame]
    | reached s =>
        rw [← runLines_eq_runMoves] at hbefore
        have hstacked : Stacked s (before.length + 1) s.frames := by
          rw [Nat.add_comm]
          exact stacked_of_runLines .initial (.nil 1) hbefore
        dsimp only
        rw [runLines, Move.ofLine_of_commentary hline, Nat.add_comm 1]
        exact finish_runLines_succ hstacked options after
  refine ⟨?_, hinserted⟩
  rw [hinserted]
  cases ofLines options (before ++ after) with
  | ok document => rfl
  | error error =>
      have hback := StructureError.mapLine_mapLine
        (lineRemoved_lineInserted (before.length + 1)) error
      simp only [Except.mapError, hback]

/-- A log whose array ends at a blank line. -/
def blankLog : List String :=
  ["[INFO][rank 0][ARK][begin-step-attempt] y(:) =",
    "1",
    ""]

/-- The rest of that log. -/
def blankRest : List String :=
  ["[INFO][rank 0][ARK][note] k = 2",
    "[INFO][rank 0][ARK][end-nls]"]

/-- The array is not longer for a line behind the blank one, and the error behind it is on a later line.
At the top of the log a line makes the line of the step that is never closed a later one. -/
theorem ofLines_commentary_blank :
    ofLines {} (blankLog ++ "2" :: blankRest) = .error (.mismatchedEnd 6 "nls" "step-attempt") ∧
      ofLines {} (blankLog ++ blankRest) = .error (.mismatchedEnd 5 "nls" "step-attempt") ∧
      ofLines {} (blankLog ++ "2" :: []) =
        .ok
          { globals := []
            steps := [[("level", .value (.integer 0)), ("y(:)", .value (.array [.integer 1]))]] } ∧
      ofLines { requireClosed := true } ("solver" :: blankLog) =
        .error (.unclosedSection 2 "step-attempt") := by
  have hended : ArraysEnded Payload.defaultIndicator blankLog := by decide +kernel
  have hbehind (after : List String) :=
    @ofLines_commentary {} blankLog after "2" (by decide +kernel) hended
  have hfront := @ofLines_commentary { requireClosed := true } [] blankLog "solver" (by decide +kernel)
    (by decide +kernel)
  have hrest : ofLines {} (blankLog ++ blankRest) =
      .error (.mismatchedEnd 5 "nls" "step-attempt") := by decide +kernel
  have hread : ofLines {} (blankLog ++ []) = .ok
      { globals := []
        steps := [[("level", .value (.integer 0)), ("y(:)", .value (.array [.integer 1]))]] } := by
    decide +kernel
  have hstrict : ofLines { requireClosed := true } ([] ++ blankLog) =
      .error (.unclosedSection 1 "step-attempt") := by decide +kernel
  have hbroken := (hbehind blankRest).2
  have hcut := (hbehind []).2
  have hunclosed := hfront.2
  rw [hrest] at hbroken
  rw [hread] at hcut
  rw [hstrict] at hunclosed
  exact ⟨hbroken, hrest, hcut, hunclosed⟩

end Document

end SolverLog
