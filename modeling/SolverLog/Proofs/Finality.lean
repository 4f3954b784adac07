import SolverLog.Proofs.Likeness

/-!
# Errors are final

Where sections may stay open at the end of a log, an error is decided at the line that it names: the
lines before it have a document, the lines up to it have the error, and no line after it matters. A
record does look at the lines after it, for its arrays, but no check depends on a value.

* `runMoves_more` — lines are carried out alike, whatever the lines after them.
* `Document.error_final` — the line of an error decides it.
-/

namespace SolverLog

namespace Builder

variable {indicator : String} {number : Nat} {lines more more' : List String} {s s' : State}
  {error : StructureError} {last : State}

/-- Whether lines are carried out does not depend on the lines after them. -/
theorem runMoves_more (indicator : String) (number : Nat) (lines more more' : List String)
    (s : State) :
    (runMoves number (Move.ofLines indicator more lines) s).Alike (fun _ _ => True)
      (runMoves number (Move.ofLines indicator more' lines) s) :=
  runMoves_alike (fun _ => trivial) number
    (Move.ofLines_alike (fun _ => trivial) indicator (fun _ => trivial) lines)
    (.refl (fun _ => trivial) s)

theorem reached_more (h : runMoves number (Move.ofLines indicator more lines) s = .reached s')
    (more' : List String) :
    ∃ t, runMoves number (Move.ofLines indicator more' lines) s = .reached t := by
  have halike := runMoves_more indicator number lines more more' s
  rw [h] at halike
  generalize runMoves number (Move.ofLines indicator more' lines) s = outcome at halike
  cases halike with
  | reached _ => exact ⟨_, rfl⟩

theorem refused_more
    (h : runMoves number (Move.ofLines indicator more lines) s = .refused error s')
    (more' : List String) :
    ∃ t, runMoves number (Move.ofLines indicator more' lines) s = .refused error t := by
  have halike := runMoves_more indicator number lines more more' s
  rw [h] at halike
  generalize runMoves number (Move.ofLines indicator more' lines) s = outcome at halike
  cases halike with
  | refused _ _ _ => exact ⟨_, rfl⟩

/-- Lines that are refused are refused with any lines after them. -/
theorem runLines_append_refused (h : runLines indicator number lines s = .refused error s')
    (more : List String) :
    ∃ t, runLines indicator number (lines ++ more) s = .refused error t := by
  rw [runLines_eq_runMoves] at h
  obtain ⟨t, hmore⟩ := refused_more h more
  refine ⟨t, ?_⟩
  rw [runLines_append, hmore]

/-- The lines before one that is refused are carried out on their own. -/
theorem reached_before
    (hbefore : runMoves number (Move.ofLines indicator more lines) s = .reached s') :
    ∃ t, runLines indicator number lines s = .reached t := by
  obtain ⟨t, hreached⟩ := reached_more hbefore []
  rw [← runLines_eq_runMoves] at hreached
  exact ⟨t, hreached⟩

/-- A line that is refused is refused as the last one, too. -/
theorem refused_upto {line : String} {following : List String}
    (hbefore : runMoves number (Move.ofLines indicator (line :: following) lines) s = .reached s')
    (hline : run (number + lines.length) (Move.ofLine indicator line following) s' =
      .refused error last) :
    ∃ t, runLines indicator number (lines ++ [line]) s = .refused error t := by
  have hmoves : runMoves number (Move.ofLines indicator following (lines ++ [line])) s =
      .refused error last := by
    rw [Move.ofLines_append, runMoves_append, List.singleton_append, hbefore]
    simp only [Move.length_ofLines, Move.ofLines, List.nil_append, runMoves, hline]
  obtain ⟨t, hrefused⟩ := refused_more hmoves []
  rw [← runLines_eq_runMoves] at hrefused
  exact ⟨t, hrefused⟩

/-- A line of commentary is not refused. -/
theorem isRecordLine_of_refused {line : String} {following : List String}
    (h : run number (Move.ofLine indicator line following) s = .refused error s') :
    isRecordLine line = true := by
  cases hline : isRecordLine line with
  | true => rfl
  | false =>
      rw [Move.ofLine_of_commentary hline] at h
      cases h

end Builder

/-- Errors are exact and final. Where sections may stay open, an error names a record line of the
log; the lines before it have a document, the lines up to it have that error, and so has the log
with any lines after it. -/
theorem Document.error_final {options : Options} (hopen : options.requireClosed = false)
    {lines : List String} {error : StructureError}
    (h : Document.ofLines options lines = .error error) :
    1 ≤ error.line ∧ error.line ≤ lines.length ∧
      (∃ line, lines[error.line - 1]? = some line ∧ isRecordLine line = true) ∧
      (∃ document, Document.ofLines options (lines.take (error.line - 1)) = .ok document) ∧
      Document.ofLines options (lines.take error.line) = .error error ∧
      ∀ more, Document.ofLines options (lines ++ more) = .error error := by
  obtain ⟨last, hrun⟩ : ∃ last, Builder.runLines options.arrayIndicator 1 lines .initial =
      .refused error last := by
    rcases Builder.refused_of_ofLines h with hrefused | ⟨hclosed, -⟩
    · exact hrefused
    · rw [hopen] at hclosed
      cases hclosed
  have hmore : ∀ more, Document.ofLines options (lines ++ more) = .error error := by
    intro more
    obtain ⟨_, hrefused⟩ := Builder.runLines_append_refused hrun more
    exact Builder.ofLines_of_refused hrefused
  obtain ⟨before, line, following, start, rfl, hbefore, hline⟩ :=
    Builder.exists_of_runLines_refused hrun
  have hnumber : error.line = before.length + 1 := by
    obtain ⟨_, _, _, _, _, hrefused⟩ := Builder.exists_of_run_refused hline
    rw [Builder.Move.line_of_refused hrefused, Nat.add_comm]
  obtain ⟨t, hreached⟩ := Builder.reached_before hbefore
  obtain ⟨_, hrefused⟩ := Builder.refused_upto hbefore hline
  have htake : (before ++ line :: following).take (before.length + 1) = before ++ [line] := by
    rw [List.take_length_add_append, List.take_succ_cons, List.take_zero]
  rw [hnumber, Nat.add_sub_cancel]
  refine ⟨by omega, by simp, ⟨line, by simp, Builder.isRecordLine_of_refused hline⟩, ?_, ?_, hmore⟩
  · rw [List.take_left]
    exact ⟨t.document, Builder.ofLines_of_reached hopen hreached⟩
  · rw [htake]
    exact Builder.ofLines_of_refused hrefused

/-- A log with an error in its middle, on a line that an array of the line before it stops at. -/
def brokenLog : List String :=
  ["[INFO][rank 0][MRI][begin-step-attempt] y(:) =",
    "1.5",
    "[INFO][rank 0][MRI][end-nls] z(:) =",
    "2.5",
    "[INFO][rank 0][MRI][end-fast-steps]"]

theorem Document.error_final_broken :
    Document.ofLines {} brokenLog = .error (.mismatchedEnd 3 "nls" "step-attempt") ∧
      1 ≤ 3 ∧ 3 ≤ brokenLog.length ∧
      (∃ line, brokenLog[2]? = some line ∧ isRecordLine line = true) ∧
      (∃ document, Document.ofLines {} (brokenLog.take 2) = .ok document) ∧
      Document.ofLines {} (brokenLog.take 3) = .error (.mismatchedEnd 3 "nls" "step-attempt") ∧
      ∀ more, Document.ofLines {} (brokenLog ++ more) =
        .error (.mismatchedEnd 3 "nls" "step-attempt") := by
  have hread : Document.ofLines {} brokenLog =
      .error (.mismatchedEnd 3 "nls" "step-attempt") := by decide +kernel
  exact ⟨hread, Document.error_final rfl hread⟩

end SolverLog
