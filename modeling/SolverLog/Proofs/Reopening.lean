import SolverLog.Proofs.Arrays
import SolverLog.Proofs.Depths
import SolverLog.Proofs.Relining
import SolverLog.Proofs.Stacking

/-!
# Closing a section and opening it again

A plain section that is closed and opened again goes on as if it had stayed open. Its dictionary is
still at its name in the section below, so it is found there, and only the line that opened it is
another one.

* `IsMarkerLine` — the lines that open or close a section and set nothing.
* `runLines_reopened` — from the state before such a pair of lines to the state after it.
* `Document.ofLines_reopened` — a log with such a pair of lines, and the log without it.
-/

namespace SolverLog

/-- A record line with that label and no fields. -/
def IsMarkerLine (label line : String) : Prop :=
  ∃ header ∈ Header.read? line, header.label = label ∧ Payload.fields header.payload = []

instance (label line : String) : Decidable (IsMarkerLine label line) :=
  inferInstanceAs (Decidable (∃ header ∈ Header.read? line, _ ∧ _))

/-- The label that closes a section, if there is one that opens it. -/
theorem Marker.ofLabel_end_name {opened : Section}
    (h : ofLabel ("begin-" ++ opened.name) = opens opened) :
    ofLabel ("end-" ++ opened.name) = closes opened := by
  obtain ⟨hnamed, hne, hfast, -⟩ := ofLabel_eq_opens_iff.mp h
  rw [ofLabel_end]
  rcases ofClosing_cases opened.name with ⟨hempty, -⟩ | ⟨hregion, -⟩ | ⟨-, -, closed, hclosed, hname, h⟩
  · exact absurd hempty hne
  · exact absurd hregion hfast
  · rw [h, (hclosed.eq_iff hnamed).mpr hname]

namespace Builder

variable {indicator : String} {label line closing opening : String} {lines following : List String}
  {s : State} {frame : Frame} {outer : List Frame} {name : String} {number : Nat}

/-- The sections that are open after some lines, innermost first, if the lines are carried out. -/
def openFrames (indicator : String) (lines : List String) : Option (List Frame) :=
  match runLines indicator 1 lines .initial with
  | .reached s => some s.frames
  | .refused .. => none

/-! ## Marker lines -/

theorem isRecordLine_of_isMarkerLine (h : IsMarkerLine label line) : isRecordLine line = true := by
  obtain ⟨header, hheader, -⟩ := h
  exact isRecordLine_of_read? hheader

theorem exists_of_isMarkerLine (h : IsMarkerLine label line) (indicator : String)
    (following : List String) :
    ∃ record, Record.read? indicator line following = some record ∧ record.label = label ∧
      record.payload = [] := by
  obtain ⟨header, hheader, hlabel, hfields⟩ := h
  have hread : Record.read? indicator line following = some
      { level := header.level
        rank := header.rank
        scope := header.scope
        label := header.label
        payload := Payload.decode indicator following header.payload } := by
    rw [Record.read?, Option.mem_def.mp hheader, Option.map_some]
  have hpayload : Payload.decode indicator following header.payload = [] := by
    rw [Payload.decode, hfields]
    rfl
  exact ⟨_, hread, hlabel, hpayload⟩

theorem Move.ofLine_of_closes (h : IsMarkerLine label line) {closed : Section}
    (hmarker : Marker.ofLabel label = .closes closed) :
    Move.ofLine indicator line following = [.expect closed, .leave] := by
  obtain ⟨record, hread, rfl, hpayload⟩ := exists_of_isMarkerLine h indicator following
  simp only [ofLine, hread, ofRecord_eq, hmarker, hpayload]
  rfl

theorem Move.ofLine_of_opens (h : IsMarkerLine label line) {opened : Section}
    (hmarker : Marker.ofLabel label = .opens opened) :
    Move.ofLine indicator line following = [.enter opened] := by
  obtain ⟨record, hread, rfl, hpayload⟩ := exists_of_isMarkerLine h indicator following
  simp only [ofLine, hread, ofRecord_eq, hmarker, hpayload]
  rfl

/-! ## The state after the pair -/

/-- A dictionary at a key is used again. -/
theorem State.vacancy_of_dict {parent : Nat} {key : String} {child : Nat}
    (h : (s.entries parent).value? key = some (.dict child)) :
    s.vacancy (.member parent key) = .held child := by
  simp only [vacancy, h]

/-- The line of an opening, when the section that was opened on the line `opening` is opened again on
the second one of two lines behind the line `position`. -/
def lineReopened (position opening line : Nat) : Nat :=
  if line = opening then position + 2 else if line ≤ position then line else line + 2

/-- The sections below keep their lines. -/
theorem map_reline_of_stacked (hstacked : Stacked s frame.line outer) (hline : frame.line ≤ number) :
    outer.map (Frame.reline (lineReopened number frame.line)) = outer := by
  conv_rhs => rw [← List.map_id outer]
  refine List.map_congr_left fun below hbelow => ?_
  have hlt := hstacked.line_lt below hbelow
  have hsame : lineReopened number frame.line below.line = below.line := by
    unfold lineReopened
    rw [if_neg (by omega), if_pos (by omega)]
  rw [Frame.reline, hsame, id_eq]

/-- A plain section that is closed and opened again has its dictionary, its depth and the sections
below it. -/
theorem runLines_reopened (hstacked : Stacked s (number + 1) s.frames)
    (hcounted : Counted s.frames)
    (hframes : s.frames = frame :: outer) (hplain : frame.opened = .plain name)
    (hclosing : IsMarkerLine ("end-" ++ name) closing)
    (hopening : IsMarkerLine ("begin-" ++ name) opening) :
    runLines indicator (number + 1) (closing :: opening :: following) s =
      runLines indicator (number + 3) following (s.reline (lineReopened number frame.line)) := by
  rw [hframes] at hstacked hcounted
  cases hstacked with
  | cons hline hmember hlabel houter =>
      have hname : frame.opened.name = name := by
        rw [hplain]
        rfl
      have hends := Marker.ofLabel_end_name hlabel
      rw [hname, hplain] at hlabel hends
      have hclosed : run (number + 1) (Move.ofLine indicator closing (opening :: following)) s =
          .reached { s with frames := outer } := by
        rw [Move.ofLine_of_closes hclosing hends]
        simp [run, Move.apply, hframes, hplain]
      -- The section below still holds the dictionary at the name.
      have hheld : ({ s with frames := outer } : State).vacancy
          (({ s with frames := outer } : State).place (.plain name)) = .held frame.dict := by
        refine State.vacancy_of_dict ?_
        rw [State.current_eq]
        exact hmember name hplain
      have hopened : run (number + 2) (Move.ofLine indicator opening following)
          { s with frames := outer } = .reached (s.reline (lineReopened number frame.line)) := by
        rw [Move.ofLine_of_opens hopening hlabel, run_enter_held hheld]
        have hrelined : s.reline (lineReopened number frame.line) =
            { s with frames := { frame with line := number + 2 } :: outer } := by
          unfold State.reline
          rw [hframes, List.map_cons, map_reline_of_stacked houter (Nat.le_of_lt_succ hline),
            Frame.reline, lineReopened, if_pos rfl]
        have hdepth : ({ s with frames := outer } : State).depth + 1 = frame.depth := by
          cases hcounted with
          | cons hframe houter => rw [hframe, Counted.depth_eq houter]
        rw [hrelined, State.enter, ← hplain, hdepth]
      simp only [runLines, hclosed, hopened]

/-! ## Errors behind the pair -/

/-- What is refused is on one of the lines that are read. -/
theorem le_line_of_refused {error : StructureError} {last : State}
    (h : runLines indicator number lines s = .refused error last) : number ≤ error.line := by
  obtain ⟨before, line, following, start, -, -, hrun⟩ := exists_of_runLines_refused h
  rw [line_of_run_refused hrun]
  exact Nat.le_add_right number _

end Builder

/-- The error of a log when two lines are put behind the line `position`, and the section that was
opened on the line `opening` is opened again on the second one. Later lines move on by two. -/
def StructureError.afterReopening (position opening : Nat) (error : StructureError) :
    StructureError :=
  let later := error.mapLine fun line => if line ≤ position then line else line + 2
  match error with
  | unclosedSection line name => if line = opening then unclosedSection (position + 2) name else later
  | _ => later

theorem StructureError.afterReopening_unclosed (position opening line : Nat) (name : String) :
    (unclosedSection line name).afterReopening position opening =
      (unclosedSection line name).mapLine (Builder.lineReopened position opening) := by
  unfold afterReopening Builder.lineReopened
  dsimp only [mapLine]
  split <;> rfl

theorem StructureError.afterReopening_of_lt {position opening : Nat} {error : StructureError}
    (hopening : opening ≤ position) (hline : position < error.line) :
    error.afterReopening position opening =
      error.mapLine (Builder.lineReopened position opening) := by
  have hne : error.line ≠ opening := by omega
  have hlater : ¬error.line ≤ position := by omega
  cases error <;>
    simp_all [afterReopening, Builder.lineReopened, mapLine, StructureError.line]

namespace Document

open Builder

variable {options : Options} {lines following : List String} {frame : Frame} {outer : List Frame}
  {name closing opening : String}

/-- Closing a plain section and opening it again makes no difference. After lines of a log that are
carried out and leave the section innermost open, and that no array leaves, a line that closes it and
a line that opens it are put in. The document is the same; an error is on a line two later if it was
on a later line, and that the section is never closed is now said of the line that opens it again. -/
theorem ofLines_reopened
    (hopen : openFrames options.arrayIndicator lines = some (frame :: outer))
    (hplain : frame.opened = .plain name)
    (hacross : NoArrayAcross options.arrayIndicator lines following)
    (hclosing : IsMarkerLine ("end-" ++ name) closing)
    (hopening : IsMarkerLine ("begin-" ++ name) opening) :
    ofLines options (lines ++ closing :: opening :: following) =
      match ofLines options (lines ++ following) with
      | .ok document => .ok document
      | .error error => .error (error.afterReopening lines.length frame.line) := by
  obtain ⟨s, hrun, hframes⟩ : ∃ s, runLines options.arrayIndicator 1 lines .initial = .reached s ∧
      s.frames = frame :: outer := by
    unfold openFrames at hopen
    split at hopen
    · next s hrun => exact ⟨s, hrun, Option.some.inj hopen⟩
    · cases hopen
  have hstacked : Stacked s (lines.length + 1) s.frames := by
    rw [Nat.add_comm]
    exact stacked_of_runLines .initial (.nil 1) hrun
  have hline : frame.line ≤ lines.length :=
    Nat.le_of_lt_succ (hstacked.line_lt frame (hframes ▸ List.mem_cons_self))
  -- The first lines lead to the same state, whatever follows.
  have hfirst (more : List String) (hmore : NoArrayAcross options.arrayIndicator lines more) :
      runLines options.arrayIndicator 1 (lines ++ more) .initial =
        runLines options.arrayIndicator (lines.length + 1) more s := by
    rw [runLines_append, Move.ofLines_of_noArrayAcross hmore, ← runLines_eq_runMoves, hrun,
      Nat.add_comm 1]
  have hpair : NoArrayAcross options.arrayIndicator lines (closing :: opening :: following) := by
    refine .inl fun line hhead => .inr ?_
    cases hhead
    exact isRecordLine_of_isMarkerLine hclosing
  have hchange : ∀ line, lines.length + 1 ≤ line →
      lineReopened lines.length frame.line line = line + 2 := by
    intro line hlater
    unfold lineReopened
    rw [if_neg (by omega), if_neg (by omega)]
  unfold ofLines
  rw [hfirst _ hpair, hfirst _ hacross,
    runLines_reopened hstacked (counted_of_runLines hrun) hframes hplain hclosing hopening,
    runLines_reline hchange, Outcome.finish_reline]
  cases houtcome : runLines options.arrayIndicator (lines.length + 1) following s with
  | refused error last =>
      have herror := StructureError.afterReopening_of_lt hline (le_line_of_refused houtcome)
      simp only [Outcome.finish, Except.mapError, herror]
  | reached t =>
      -- The only error that is left is that a section is never closed.
      simp only [Outcome.finish, State.finish]
      split
      · split
        · simp only [Except.mapError, StructureError.afterReopening_unclosed]
        · rfl
      · rfl

/-- A log that is cut off within a fast step, in a section that is named like the entries of a list. -/
def listedLog : List String :=
  ["[INFO][rank 0][MRI][begin-step-attempt] h = 2",
    "[INFO][rank 0][MRI][begin-fast-steps]",
    "[INFO][rank 0][ERK][begin-step-attempt]",
    "[INFO][rank 0][ERK][begin--list] y(:) =",
    "1"]

/-- The section of that log is closed and opened again, and more lines follow. -/
def listedAgain (following : List String) : List String :=
  listedLog ++ "[A][rank -1][a][end--list]" :: "[B][rank 2][][begin--list] ," :: following

/-- The rest of a log that closes the section and its step, but not the step around them. -/
def listedRest : List String :=
  ["[INFO][rank 0][ERK][note] k = 3",
    "[INFO][rank 0][ERK][end--list]",
    "[INFO][rank 0][ERK][end-step-attempt]"]

/-- The document of the whole log. -/
def listedDocument : Document where
  globals := []
  steps :=
    [[("level", .value (.integer 0)),
      ("h", .value (.integer 2)),
      ("time-level-1", .list
        [[("level", .value (.integer 1)),
          ("-list", .dict [("y(:)", .value (.array [.integer 1])), ("k", .value (.integer 3))])]])]]

/-- The document of the log, and three errors: that the section is never closed, that the step around
it is not, and one on a line behind. -/
theorem ofLines_reopened_listed :
    ofLines {} (listedAgain listedRest) = .ok listedDocument ∧
      ofLines { requireClosed := true } (listedAgain []) = .error (.unclosedSection 7 "-list") ∧
      ofLines { requireClosed := true } (listedAgain listedRest) =
        .error (.unclosedSection 1 "step-attempt") ∧
      ofLines {} (listedAgain ["[INFO][rank 0][ERK][end-nls]"]) =
        .error (.mismatchedEnd 8 "nls" "-list") := by
  have hopen : openFrames Payload.defaultIndicator listedLog =
      some [⟨3, .plain "-list", 3, 4⟩, ⟨2, .step, 2, 3⟩, ⟨1, .step, 1, 1⟩] := by decide +kernel
  have hclosing : IsMarkerLine "end--list" "[A][rank -1][a][end--list]" := by decide +kernel
  have hopening : IsMarkerLine "begin--list" "[B][rank 2][][begin--list] ," := by decide +kernel
  have hagain (requireClosed : Bool) (following : List String)
      (hacross : NoArrayAcross Payload.defaultIndicator listedLog following) :=
    @ofLines_reopened { requireClosed } listedLog following _ _ "-list" _ _ hopen rfl hacross hclosing
      hopening
  have hrest := hagain false listedRest (by decide +kernel)
  have hnone := hagain true [] (by decide +kernel)
  have hstrict := hagain true listedRest (by decide +kernel)
  have hother := hagain false ["[INFO][rank 0][ERK][end-nls]"] (by decide +kernel)
  have hrestRead : ofLines {} (listedLog ++ listedRest) = .ok listedDocument := by decide +kernel
  have hnoneRead : ofLines { requireClosed := true } (listedLog ++ []) =
      .error (.unclosedSection 4 "-list") := by decide +kernel
  have hstrictRead : ofLines { requireClosed := true } (listedLog ++ listedRest) =
      .error (.unclosedSection 1 "step-attempt") := by decide +kernel
  have hotherRead : ofLines {} (listedLog ++ ["[INFO][rank 0][ERK][end-nls]"]) =
      .error (.mismatchedEnd 6 "nls" "-list") := by decide +kernel
  rw [hrestRead] at hrest
  rw [hnoneRead] at hnone
  rw [hstrictRead] at hstrict
  rw [hotherRead] at hother
  exact ⟨hrest, hnone, hstrict, hother⟩

end Document

end SolverLog
