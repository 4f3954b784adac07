import SolverLog.Proofs.Depths
import SolverLog.Proofs.Finality
import SolverLog.Proofs.Messages
import SolverLog.Proofs.Register

/-!
# The trace of a log

The trace keeps account of the sections of a log. Every section that is announced gets the depth at which
it stands, whatever is closed is the latest one that is announced and not closed, and the warnings at the
end name those that are left.

* `unclosed` — the sections that some events announce and do not close.
* `Event.Fits` — an event that is right after the events before it.
* `Follows` — the events of the lines that lead to a state.
* `Follows.next`, `Follows.reached`, `Follows.refused` — one line, and the lines of a log.
* `traceLines_faithful` — the trace of every log.
-/

namespace SolverLog

/-! ## The lines of a log -/

/-- The numbers of the lines that are commentary. -/
def commentaryNumbers (lines : List String) : List Nat :=
  (lines.zipIdx 1).filterMap fun (line, number) => if isRecordLine line then none else some number

/-- The label of a line, if it opens or closes a section or begins a region of fast steps. -/
def markerLabel? (line : String) : Option String :=
  (Header.read? line).bind fun header =>
    match Marker.ofLabel header.label with
    | .opens _ | .closes _ | .beginsFastSteps => some header.label
    | .remark | .endsFastSteps => none

/-- The labels of the lines that open or close a section or begin a region of fast steps, with the
numbers of these lines. -/
def markerLabels (lines : List String) : List (Nat × String) :=
  (lines.zipIdx 1).filterMap fun (line, number) => (markerLabel? line).map fun label => (number, label)

theorem commentaryNumbers_concat (lines : List String) (line : String) :
    commentaryNumbers (lines ++ [line]) =
      commentaryNumbers lines ++ if isRecordLine line then [] else [lines.length + 1] := by
  unfold commentaryNumbers
  rw [List.zipIdx_append, List.filterMap_append, List.zipIdx_singleton, Nat.add_comm 1]
  cases hline : isRecordLine line <;> simp [hline]

theorem markerLabels_concat (lines : List String) (line : String) :
    markerLabels (lines ++ [line]) =
      markerLabels lines ++ ((markerLabel? line).map fun label => (lines.length + 1, label)).toList := by
  unfold markerLabels
  rw [List.zipIdx_append, List.filterMap_append, List.zipIdx_singleton, Nat.add_comm 1]
  cases hlabel : markerLabel? line <;> simp [hlabel]

namespace Builder

/-! ## The events of a trace -/

/-- A section as a trace announces it. -/
structure Announced where
  line : Nat
  name : String
  depth : Nat
deriving DecidableEq, Repr

/-- An open section as it was announced. -/
def Frame.announced (frame : Frame) : Announced where
  line := frame.line
  name := frame.opened.name
  depth := frame.depth

namespace Event

/-- The sections that are announced and not closed after an event, innermost first. -/
def change (announced : List Announced) : Event → List Announced
  | opened line name depth => ⟨line, name, depth⟩ :: announced
  | closed .. => announced.tail
  | _ => announced

/-- The number of a line that was passed over. -/
def skipped? : Event → Option Nat
  | skipped line => some line
  | _ => none

/-- The number of a line, and the label that an event says it has. -/
def label? : Event → Option (Nat × String)
  | opened line name _ => some (line, "begin-" ++ name)
  | closed line name _ => some (line, "end-" ++ name)
  | fastSteps line _ => some (line, "begin-fast-steps")
  | _ => none

/-- What an event says is right, if those lines of the log are accepted and those sections are
announced and not closed before it. A section that is opened stands on all of these, a section that is
closed is the latest one, and the level of fast steps is the number of regions that the lines up to that
one begin and do not end. -/
def Fits (accepted : List String) (announced : List Announced) : Event → Prop
  | opened _ _ depth => depth = announced.length + 1
  | closed _ name depth => ∃ latest ∈ announced.head?, name = latest.name ∧ depth = latest.depth
  | fastSteps line level => line ≤ accepted.length ∧ (level : Int) = regionsOf (accepted.take line)
  | _ => True

end Event

/-- The sections that events announce and do not close, innermost first. -/
def unclosed (events : List Event) : List Announced :=
  events.foldl Event.change []

theorem unclosed_concat (events : List Event) (event : Event) :
    unclosed (events ++ [event]) = event.change (unclosed events) := by
  simp [unclosed]

/-- Every event is right after those before it. -/
def EachFits (accepted : List String) (trace : List Event) : Prop :=
  ∀ before event after, trace = before ++ event :: after → event.Fits accepted (unclosed before)

/-- The lines of a log that are accepted: all of them, or those before the one on which a move is
refused. -/
def acceptedLines (indicator : String) (lines : List String) : List String :=
  match runLines indicator 1 lines .initial with
  | .reached _ => lines
  | .refused error _ => lines.take (error.line - 1)

/-- A trace that keeps account of the sections of a log. -/
structure Faithful (options : Options) (lines : List String) (trace : List Event) : Prop where
  /-- What the events say of sections and regions is right. -/
  fits : EachFits (acceptedLines options.arrayIndicator lines) trace
  /-- The lines that were passed over are the commentary among those that are accepted. -/
  skipped : trace.filterMap Event.skipped? =
    commentaryNumbers (acceptedLines options.arrayIndicator lines)
  /-- There is an event for every line that opens or closes a section or begins a region, among the lines
  that are accepted, or these and the line behind them. -/
  marked : trace.filterMap Event.label? = markerLabels (acceptedLines options.arrayIndicator lines) ∨
    trace.filterMap Event.label? =
      markerLabels (lines.take ((acceptedLines options.arrayIndicator lines).length + 1))
  /-- If the log has a document, the warnings name what is open at its end. -/
  warned : ∀ document, Document.ofLines options lines = .ok document →
    ∃ count : Nat, (count : Int) = regionsOf lines ∧
      trace.filter (·.severity = .warn) =
        (unclosed trace).map (fun announced => .neverClosed announced.name announced.line) ++
          if count = 0 then [] else [.fastStepsNeverClosed count]
  /-- If it has none, there is no warning. -/
  quiet : ∀ error, Document.ofLines options lines = .error error →
    ∀ event ∈ trace, event.severity ≠ .warn

/-! ## The events of one line -/

variable {s t : State} {number : Nat} {error : StructureError} {last : State}

theorem events_append (line : Nat) (first second : List Move) (s : State) :
    events line (first ++ second) s =
      events line first s ++
        match run line first s with
        | .reached t => events line second t
        | .refused .. => [] := by
  induction first generalizing s with
  | nil => rfl
  | cons move rest ih =>
      simp only [List.cons_append, events, run]
      cases move.apply line s with
      | reached next => simp only [ih, List.append_assoc]
      | refused error last => rfl

/-- Fields leave no event. -/
theorem events_sets (line : Nat) (fields : Payload) (s : State) :
    events line (Move.sets fields) s = [] := by
  induction fields generalizing s with
  | nil => rfl
  | cons field rest ih =>
      show events line (.set field.1 field.2 :: Move.sets rest) s = []
      rw [events]
      cases (Move.set field.1 field.2).apply line s with
      | reached next => exact ih next
      | refused error last => rfl

/-- Fields and a move behind them leave the event of that move, if the fields are set. -/
theorem events_sets_concat (line : Nat) (fields : Payload) (move : Move) (s : State) :
    events line (Move.sets fields ++ [move]) s =
      match run line (Move.sets fields) s with
      | .reached filled => events line [move] filled
      | .refused .. => [] := by
  rw [events_append, events_sets, List.nil_append]

/-- A check leaves no event. -/
theorem events_check {check : Move}
    (hcheck : (∃ closed, check = .expect closed) ∨ check = .expectFast) (line : Nat)
    (rest : List Move) (s : State) :
    events line (check :: rest) s =
      match check.apply line s with
      | .reached _ => events line rest s
      | .refused .. => [] := by
  rw [events]
  cases happly : check.apply line s with
  | refused error last => rfl
  | reached next =>
      have hstep := Transition.of_apply happly
      rcases hcheck with ⟨closed, rfl⟩ | rfl
      · cases hstep
        rfl
      · cases hstep
        rfl

/-- The events of a record that is carried out. -/
theorem events_of_reached {record : Record}
    (h : run number (Move.ofRecord record) s = .reached t) :
    events number (Move.ofRecord record) s =
      match Marker.ofLabel record.label with
      | .opens opened => [.opened number opened.name (s.depth + 1)]
      | .closes _ =>
        (s.frames.head?.map fun frame => .closed number frame.opened.name frame.depth).toList
      | .beginsFastSteps => [.fastSteps number (s.fastSteps + 1)]
      | .remark | .endsFastSteps => [] := by
  have hstep := RecordStep.of_run h
  rw [Move.ofRecord_eq] at h ⊢
  cases hstep with
  | remark hmarker =>
      simp only [hmarker]
      exact events_sets ..
  | opens hmarker henter hsets =>
      simp only [hmarker] at h ⊢
      rw [events]
      cases happly : (Move.enter _).apply number s with
      | refused error last => simp [run, happly] at h
      | reached entered => simp only [events_sets, Move.event?, Option.toList_some, List.append_nil]
  | closes hmarker hframes hopened hsets =>
      simp only [hmarker, List.cons_append]
      rw [events_check (.inl ⟨_, rfl⟩), events_sets_concat, hsets, Move.apply]
      simp [hframes, hopened, events, Move.apply, Move.event?, (unchanged_of_run_sets hsets).1]
  | beginsFastSteps hmarker hsets =>
      simp only [hmarker]
      rw [events_sets_concat, hsets]
      simp [events, Move.apply, Move.event?, (unchanged_of_run_sets hsets).2.2]
  | endsFastSteps hmarker hopen hsets =>
      simp only [hmarker, List.cons_append]
      rw [events_check (.inr rfl), events_sets_concat, hsets, Move.apply]
      simp [hopen, events, Move.apply, Move.event?]

/-- A record that is refused leaves no event, unless it opens a section before one of its fields is
refused. -/
theorem events_of_refused {record : Record}
    (h : run number (Move.ofRecord record) s = .refused error last) :
    events number (Move.ofRecord record) s = [] ∨
      ∃ opened, Marker.ofLabel record.label = .opens opened ∧
        events number (Move.ofRecord record) s = [.opened number opened.name (s.depth + 1)] := by
  -- A last move of which none is refused is behind fields of which one is.
  have hlast {move : Move} (hmove : ∀ filled, ∃ next, move.apply number filled = .reached next)
      {fields : Payload} {error : StructureError} {last : State}
      (h : run number (Move.sets fields ++ [move]) s = .refused error last) :
      events number (Move.sets fields ++ [move]) s = [] := by
    rw [events_sets_concat]
    rw [run_append] at h
    cases hsets : run number (Move.sets fields) s with
    | refused error' last' => rfl
    | reached filled =>
        obtain ⟨next, hnext⟩ := hmove filled
        simp [hsets, run, hnext] at h
  rw [Move.ofRecord_eq] at h ⊢
  cases hmarker : Marker.ofLabel record.label with
  | remark => exact .inl (events_sets ..)
  | opens opened =>
      simp only [events]
      cases (Move.enter opened).apply number s with
      | refused error last => exact .inl rfl
      | reached entered =>
          refine .inr ⟨opened, rfl, ?_⟩
          simp only [events_sets, Move.event?, Option.toList_some, List.append_nil]
  | closes closed =>
      simp only [hmarker, List.cons_append] at h ⊢
      rw [events_check (.inl ⟨_, rfl⟩)]
      cases happly : (Move.expect closed).apply number s with
      | refused error last => exact .inl rfl
      | reached next =>
          cases Transition.of_apply happly
          rw [run, happly] at h
          exact .inl (hlast (fun filled => ⟨_, rfl⟩) h)
  | beginsFastSteps =>
      simp only [hmarker] at h
      exact .inl (hlast (fun filled => ⟨_, rfl⟩) h)
  | endsFastSteps =>
      simp only [hmarker, List.cons_append] at h ⊢
      rw [events_check (.inr rfl)]
      cases happly : Move.expectFast.apply number s with
      | refused error last => exact .inl rfl
      | reached next =>
          cases Transition.of_apply happly
          rw [run, happly] at h
          exact .inl (hlast (fun filled => ⟨_, rfl⟩) h)

/-! ## Events that follow the lines -/

/-- The events of accepted lines, or of these and of the line behind them that is refused. -/
structure Traces (accepted : List String) (past : List Event) : Prop where
  fits : EachFits accepted past
  skipped : past.filterMap Event.skipped? = commentaryNumbers accepted
  quiet : ∀ event ∈ past, event.severity ≠ .warn

/-- The events of the lines that lead to a state. -/
structure Follows (accepted : List String) (past : List Event) (s : State) : Prop
    extends Traces accepted past where
  unclosed_eq : unclosed past = s.frames.map Frame.announced
  counted : Counted s.frames
  fastSteps_eq : (s.fastSteps : Int) = regionsOf accepted
  marked : past.filterMap Event.label? = markerLabels accepted

/-- The events of the lines that lead to one that is refused, and of that line. -/
structure Stops (accepted : List String) (line : String) (past : List Event) : Prop
    extends Traces accepted past where
  marked : past.filterMap Event.label? = markerLabels accepted ∨
    past.filterMap Event.label? = markerLabels (accepted ++ [line])

variable {accepted : List String} {past : List Event} {event : Event} {line : String}
  {following : List String} {indicator : String}

theorem Follows.initial : Follows [] [] .initial where
  fits := by
    intro before event after h
    simp at h
  skipped := rfl
  quiet := by simp
  unclosed_eq := rfl
  counted := .nil
  fastSteps_eq := rfl
  marked := rfl

/-- What is right stays so when more lines are accepted. -/
theorem Event.Fits.append {announced : List Announced} (h : event.Fits accepted announced)
    (more : List String) : event.Fits (accepted ++ more) announced := by
  cases event with
  | fastSteps number level =>
      obtain ⟨hnumber, hlevel⟩ := h
      refine ⟨by rw [List.length_append]; omega, ?_⟩
      rwa [List.take_append_of_le_length hnumber]
  | skipped | opened | closed | neverClosed | fastStepsNeverClosed => exact h

theorem EachFits.append (h : EachFits accepted past) (more : List String) :
    EachFits (accepted ++ more) past :=
  fun before event after heq => (h before event after heq).append more

theorem EachFits.concat (h : EachFits accepted past) (hevent : event.Fits accepted (unclosed past)) :
    EachFits accepted (past ++ [event]) := by
  intro before other after heq
  rcases List.eq_nil_or_concat' after with rfl | ⟨more, last, rfl⟩
  · obtain ⟨rfl, hlast⟩ := List.append_inj' heq rfl
    cases hlast
    exact hevent
  · rw [← List.cons_append, ← List.append_assoc] at heq
    exact h before other more (List.append_inj' heq rfl).1

/-- One more event, that of a line that is a record. -/
theorem Traces.concat (h : Traces accepted past) (hevent : event.Fits accepted (unclosed past))
    (hskipped : event.skipped? = none) (hquiet : event.severity ≠ .warn) :
    Traces accepted (past ++ [event]) where
  fits := h.fits.concat hevent
  skipped := by
    rw [List.filterMap_append, h.skipped]
    simp [hskipped]
  quiet := by
    intro other hother
    rcases List.mem_append.mp hother with hold | hnew
    · exact h.quiet other hold
    · rw [List.mem_singleton.mp hnew]
      exact hquiet

/-- One more line, which is a record. -/
theorem Traces.record (h : Traces accepted past) (hline : isRecordLine line = true) :
    Traces (accepted ++ [line]) past where
  fits := h.fits.append [line]
  skipped := by
    rw [commentaryNumbers_concat, if_pos hline, List.append_nil]
    exact h.skipped
  quiet := h.quiet

/-- A line of commentary. -/
theorem Follows.commentary (h : Follows accepted past s) (hline : isRecordLine line = false) :
    Follows (accepted ++ [line]) (past ++ [.skipped (accepted.length + 1)]) s := by
  have hread : Header.read? line = none := isRecordLine_eq_false_iff.mp hline
  refine ⟨⟨(h.fits.append [line]).concat trivial, ?_, ?_⟩, ?_, h.counted, ?_, ?_⟩
  · rw [List.filterMap_append, h.skipped, commentaryNumbers_concat, hline]
    rfl
  · intro event hevent
    rcases List.mem_append.mp hevent with hold | hnew
    · exact h.quiet event hold
    · rw [List.mem_singleton.mp hnew]
      exact Severity.noConfusion
  · rw [unclosed_concat]
    exact h.unclosed_eq
  · rw [regionsOf_append, regionsOf_commentary hread, add_zero]
    exact h.fastSteps_eq
  · rw [List.filterMap_append, h.marked, markerLabels_concat]
    simp [markerLabel?, hread, Event.label?]

/-- The label of a record is that of its line. -/
theorem exists_header_of_read? {record : Record} (hread : Record.read? indicator line following = some record) :
    ∃ header, Header.read? line = some header ∧ record.label = header.label ∧
      markerLabel? line =
        match Marker.ofLabel record.label with
        | .opens _ | .closes _ | .beginsFastSteps => some record.label
        | .remark | .endsFastSteps => none := by
  obtain ⟨header, hheader, rfl⟩ := Option.map_eq_some_iff.mp hread
  refine ⟨header, hheader, rfl, ?_⟩
  simp only [markerLabel?, hheader, Option.bind_some]

/-- A line that is a record and leaves no event. -/
theorem Follows.silent (h : Follows accepted past s) (hline : isRecordLine line = true)
    (hlabel : markerLabel? line = none) (hframes : t.frames = s.frames)
    (hfast : (t.fastSteps : Int) = regionsOf (accepted ++ [line])) :
    Follows (accepted ++ [line]) (past ++ []) t where
  toTraces := by
    rw [List.append_nil]
    exact h.toTraces.record hline
  unclosed_eq := by rw [List.append_nil, h.unclosed_eq, hframes]
  counted := hframes ▸ h.counted
  fastSteps_eq := hfast
  marked := by
    rw [List.append_nil, h.marked, markerLabels_concat, hlabel]
    simp

/-- A line that is a record and leaves an event. -/
theorem Follows.announce (h : Follows accepted past s) (hline : isRecordLine line = true)
    (hevent : event.Fits (accepted ++ [line]) (unclosed past)) (hskipped : event.skipped? = none)
    (hquiet : event.severity ≠ .warn)
    (hlabel : event.label? = (markerLabel? line).map fun label => (accepted.length + 1, label))
    (hframes : event.change (unclosed past) = t.frames.map Frame.announced)
    (hcounted : Counted t.frames) (hfast : (t.fastSteps : Int) = regionsOf (accepted ++ [line])) :
    Follows (accepted ++ [line]) (past ++ [event]) t where
  toTraces := (h.toTraces.record hline).concat hevent hskipped hquiet
  unclosed_eq := by rw [unclosed_concat, hframes]
  counted := hcounted
  fastSteps_eq := hfast
  marked := by
    rw [List.filterMap_append, h.marked, markerLabels_concat, ← hlabel]
    cases hlabel' : event.label? <;> simp [hlabel']

/-- A section that is opened stands on those that are announced and not closed. -/
theorem Follows.fits_opened (h : Follows accepted past s) (lines : List String) (number : Nat)
    (name : String) :
    (Event.opened number name (s.depth + 1)).Fits lines (unclosed past) := by
  show s.depth + 1 = (unclosed past).length + 1
  rw [h.counted.depth_eq, h.unclosed_eq, List.length_map]

/-- A record that is carried out. -/
theorem Follows.record {record : Record} (h : Follows accepted past s)
    (hread : Record.read? indicator line following = some record)
    (hrun : run (accepted.length + 1) (Move.ofRecord record) s = .reached t) :
    Follows (accepted ++ [line])
      (past ++ events (accepted.length + 1) (Move.ofRecord record) s) t := by
  obtain ⟨header, hheader, hlabel, hmarkerLabel⟩ := exists_header_of_read? hread
  have hline : isRecordLine line = true := isRecordLine_of_read? hheader
  have hstep := RecordStep.of_run hrun
  have hfast : (t.fastSteps : Int) = regionsOf (accepted ++ [line]) := by
    rw [hstep.regions hheader hlabel, h.fastSteps_eq, regionsOf_append]
  have hcounted : Counted t.frames :=
    run_invariant (P := fun s => Counted s.frames) Counted.step h.counted hrun
  rw [events_of_reached hrun]
  -- A record leaves an event exactly if its label is one of those that are marked.
  cases hstep with
  | remark hmarker hsets =>
      simp only [hmarker] at hmarkerLabel ⊢
      exact h.silent hline hmarkerLabel (unchanged_of_run_sets hsets).1 hfast
  | @opens opened entered hmarker henter hsets =>
      simp only [hmarker] at hmarkerLabel ⊢
      obtain ⟨dict, hentered⟩ := henter.frames_enter
      refine h.announce hline ?_ rfl Severity.noConfusion ?_ ?_ hcounted hfast
      · exact h.fits_opened ..
      · rw [hmarkerLabel, (Marker.ofLabel_eq_opens_iff.mp hmarker).2.2.2]
        rfl
      · rw [(unchanged_of_run_sets hsets).1, hentered, h.unclosed_eq]
        rfl
  | @closes closed frame outer filled hmarker hframes hopened hsets hleave =>
      simp only [hmarker, hframes, List.head?_cons, Option.map_some, Option.toList_some]
        at hmarkerLabel ⊢
      have hunclosed : unclosed past = frame.announced :: outer.map Frame.announced := by
        rw [h.unclosed_eq, hframes, List.map_cons]
      refine h.announce hline ?_ rfl Severity.noConfusion ?_ ?_ hcounted hfast
      · exact ⟨frame.announced, by rw [hunclosed]; rfl, rfl, rfl⟩
      · rw [hmarkerLabel, Marker.label_of_closes hmarker, hopened]
        rfl
      · rw [hleave, hunclosed, (unchanged_of_run_sets hsets).1, hframes]
        rfl
  | @beginsFastSteps filled hmarker hsets hnext =>
      simp only [hmarker] at hmarkerLabel ⊢
      have hlevel : t.fastSteps = s.fastSteps + 1 := by
        rw [hnext, ← (unchanged_of_run_sets hsets).2.2]
      refine h.announce hline ?_ rfl Severity.noConfusion ?_ ?_ hcounted hfast
      · have hlength : (accepted ++ [line]).length = accepted.length + 1 := List.length_append
        refine ⟨Nat.le_of_eq hlength.symm, ?_⟩
        rw [← hlength, List.take_length, ← hlevel]
        exact hfast
      · rw [hmarkerLabel, Marker.ofLabel_eq_beginsFastSteps.mp hmarker]
        rfl
      · rw [hnext]
        exact h.unclosed_eq.trans (congrArg _ (unchanged_of_run_sets hsets).1.symm)
  | @endsFastSteps filled hmarker hopen hsets hnext =>
      simp only [hmarker] at hmarkerLabel ⊢
      refine h.silent hline hmarkerLabel ?_ hfast
      rw [hnext]
      exact (unchanged_of_run_sets hsets).1

/-! ## Runs -/

theorem Move.exists_of_isRecordLine (hline : isRecordLine line = true) (indicator : String)
    (following : List String) :
    ∃ record, Record.read? indicator line following = some record ∧
      Move.ofLine indicator line following = Move.ofRecord record := by
  obtain ⟨header, hheader⟩ := Option.isSome_iff_exists.mp hline
  refine ⟨_, by rw [Record.read?, hheader, Option.map_some], ?_⟩
  simp only [Move.ofLine, Record.read?, hheader, Option.map_some]

/-- A line that is carried out. -/
theorem Follows.next (h : Follows accepted past s)
    (hrun : run (accepted.length + 1) (Move.ofLine indicator line following) s = .reached t) :
    Follows (accepted ++ [line])
      (past ++ events (accepted.length + 1) (Move.ofLine indicator line following) s) t := by
  cases hline : isRecordLine line with
  | false =>
      rw [Move.ofLine_of_commentary hline] at hrun ⊢
      cases hrun
      exact h.commentary hline
  | true =>
      obtain ⟨record, hread, hmoves⟩ := Move.exists_of_isRecordLine hline indicator following
      rw [hmoves] at hrun ⊢
      exact h.record hread hrun

/-- A line that is refused. It leaves the event of the section that it opens, or none. -/
theorem Follows.stops (h : Follows accepted past s)
    (hrun : run (accepted.length + 1) (Move.ofLine indicator line following) s =
      .refused error last) :
    Stops accepted line
      (past ++ events (accepted.length + 1) (Move.ofLine indicator line following) s) := by
  obtain ⟨record, hread, hmoves⟩ :=
    Move.exists_of_isRecordLine (isRecordLine_of_refused hrun) indicator following
  rw [hmoves] at hrun ⊢
  rcases events_of_refused hrun with hnone | ⟨opened, hmarker, hopened⟩
  · rw [hnone, List.append_nil]
    exact ⟨h.toTraces, .inl h.marked⟩
  · rw [hopened]
    constructor
    · exact h.toTraces.concat (h.fits_opened ..) rfl Severity.noConfusion
    · right
      obtain ⟨_, _, _, hlabel⟩ := exists_header_of_read? hread
      simp only [hmarker] at hlabel
      rw [List.filterMap_append, h.marked, markerLabels_concat, hlabel,
        (Marker.ofLabel_eq_opens_iff.mp hmarker).2.2.2]
      rfl

/-- The lines of a log that is carried out. -/
theorem Follows.reached {rest : List String} (h : Follows accepted past s)
    (hnumber : number = accepted.length + 1) (hrun : runLines indicator number rest s = .reached t) :
    Follows (accepted ++ rest) (past ++ eventsOfLines indicator number rest s) t := by
  induction rest generalizing accepted past s number with
  | nil =>
      cases hrun
      rw [eventsOfLines, List.append_nil, List.append_nil]
      exact h
  | cons line following ih =>
      subst hnumber
      obtain ⟨middle, hline, hfollowing⟩ := runLines_cons_reached hrun
      rw [eventsOfLines, hline]
      -- The first line and its events now belong to the past.
      have hrest := ih (h.next hline) (by rw [List.length_append]; rfl) hfollowing
      rw [List.append_assoc, List.append_assoc] at hrest
      exact hrest

/-- The lines of a log that is refused: those before the one that the error names are carried out. -/
theorem Follows.refused {rest : List String} (h : Follows accepted past s)
    (hnumber : number = accepted.length + 1)
    (hrun : runLines indicator number rest s = .refused error last) :
    ∃ before line after, accepted ++ rest = before ++ line :: after ∧
      error.line = before.length + 1 ∧
        Stops before line (past ++ eventsOfLines indicator number rest s) := by
  induction rest generalizing accepted past s number with
  | nil => cases hrun
  | cons line following ih =>
      subst hnumber
      rw [runLines] at hrun
      rw [eventsOfLines]
      cases hline : run (accepted.length + 1) (Move.ofLine indicator line following) s with
      | refused error' last' =>
          rw [hline] at hrun
          cases hrun
          have hstops := h.stops hline
          rw [← List.append_nil (events _ _ _)] at hstops
          exact ⟨accepted, line, following, rfl, line_of_run_refused hline, hstops⟩
      | reached next =>
          rw [hline] at hrun
          obtain ⟨before, refused, after, hlines, herror, hstops⟩ :=
            ih (h.next hline) (by rw [List.length_append]; rfl) hrun
          rw [List.append_assoc] at hlines hstops
          exact ⟨before, refused, after, hlines, herror, hstops⟩

/-! ## The end of a log -/

/-- A warning says nothing of the lines. -/
theorem Event.of_warn (h : event.severity = .warn) :
    (∀ announced, event.change announced = announced) ∧ event.skipped? = none ∧
      event.label? = none ∧ ∀ accepted announced, event.Fits accepted announced := by
  cases event with
  | skipped | opened | closed | fastSteps => cases h
  | neverClosed | fastStepsNeverClosed => exact ⟨fun _ => rfl, rfl, rfl, fun _ _ => trivial⟩

theorem State.severity_endEvents (s : State) : ∀ event ∈ s.endEvents, event.severity = .warn := by
  intro event hevent
  rcases List.mem_append.mp hevent with hframe | hfast
  · obtain ⟨frame, -, rfl⟩ := List.mem_map.mp hframe
    rfl
  · split at hfast
    · cases hfast
    · rw [List.mem_singleton.mp hfast]
      rfl

variable {warnings : List Event}

theorem unclosed_append_warnings (hwarn : ∀ event ∈ warnings, event.severity = .warn) :
    unclosed (past ++ warnings) = unclosed past := by
  induction warnings generalizing past with
  | nil => rw [List.append_nil]
  | cons warning rest ih =>
      obtain ⟨hwarning, hrest⟩ := List.forall_mem_cons.mp hwarn
      rw [List.append_cons, ih hrest, unclosed_concat, (Event.of_warn hwarning).1]

theorem EachFits.append_warnings (h : EachFits accepted past)
    (hwarn : ∀ event ∈ warnings, event.severity = .warn) : EachFits accepted (past ++ warnings) := by
  induction warnings generalizing past with
  | nil => rwa [List.append_nil]
  | cons warning rest ih =>
      obtain ⟨hwarning, hrest⟩ := List.forall_mem_cons.mp hwarn
      rw [List.append_cons]
      exact ih (h.concat ((Event.of_warn hwarning).2.2.2 ..)) hrest

theorem filterMap_append_warnings {α : Type} {read : Event → Option α}
    (hread : ∀ event : Event, event.severity = .warn → read event = none)
    (hwarn : ∀ event ∈ warnings, event.severity = .warn) :
    (past ++ warnings).filterMap read = past.filterMap read := by
  have hwarnings : warnings.filterMap read = [] :=
    List.filterMap_eq_nil_iff.mpr fun event hevent => hread event (hwarn event hevent)
  rw [List.filterMap_append, hwarnings, List.append_nil]

theorem filter_warn_append (hquiet : ∀ event ∈ past, event.severity ≠ .warn)
    (hwarn : ∀ event ∈ warnings, event.severity = .warn) :
    (past ++ warnings).filter (·.severity = .warn) = warnings := by
  have hpast : past.filter (·.severity = .warn) = [] := by
    simpa [List.filter_eq_nil_iff] using hquiet
  have hwarnings : warnings.filter (·.severity = .warn) = warnings := by
    simpa [List.filter_eq_self] using hwarn
  rw [List.filter_append, hpast, hwarnings, List.nil_append]

variable {options : Options} {lines : List String}

/-- A log that is carried out, with the warnings at its end if it has a document. -/
theorem Follows.faithful (hrun : runLines options.arrayIndicator 1 lines .initial = .reached s)
    (h : Follows lines past s) :
    Faithful options lines
      (past ++
        match s.finish options with
        | .ok _ => s.endEvents
        | .error _ => []) := by
  have haccepted : acceptedLines options.arrayIndicator lines = lines := by
    rw [acceptedLines, hrun]
  have hresult : Document.ofLines options lines = s.finish options := by
    rw [Document.ofLines, hrun]
    rfl
  have hwarn : ∀ event ∈ (match s.finish options with
      | .ok _ => s.endEvents
      | .error _ => []), event.severity = .warn := by
    split
    · exact s.severity_endEvents
    · simp
  refine { fits := ?_, skipped := ?_, marked := ?_, warned := ?_, quiet := ?_ }
  · rw [haccepted]
    exact h.fits.append_warnings hwarn
  · rw [haccepted, filterMap_append_warnings (fun _ hevent => (Event.of_warn hevent).2.1) hwarn]
    exact h.skipped
  · left
    rw [haccepted, filterMap_append_warnings (fun _ hevent => (Event.of_warn hevent).2.2.1) hwarn]
    exact h.marked
  · intro document hdocument
    rw [hresult] at hdocument
    rw [hdocument] at hwarn ⊢
    refine ⟨s.fastSteps, h.fastSteps_eq, ?_⟩
    rw [filter_warn_append h.quiet hwarn, unclosed_append_warnings hwarn, h.unclosed_eq,
      List.map_map]
    rfl
  · intro error herror
    rw [hresult] at herror
    rw [herror, List.append_nil]
    exact h.quiet

/-- A log of which a line is refused. -/
theorem Stops.faithful {after : List String}
    (hrun : runLines options.arrayIndicator 1 lines .initial = .refused error last)
    (hlines : lines = accepted ++ line :: after) (hline : error.line = accepted.length + 1)
    (h : Stops accepted line past) : Faithful options lines past := by
  have haccepted : acceptedLines options.arrayIndicator lines = accepted := by
    rw [acceptedLines, hrun]
    simp [hline, hlines]
  have hresult : Document.ofLines options lines = .error error := ofLines_of_refused hrun
  constructor
  · rw [haccepted]
    exact h.fits
  · rw [haccepted]
    exact h.skipped
  · rw [haccepted, hlines, List.take_length_add_append]
    exact h.marked
  · intro document hdocument
    rw [hresult] at hdocument
    cases hdocument
  · exact fun _ _ => h.quiet

end Builder

open Builder

theorem faithful_traceLines (options : Options) (lines : List String) :
    Faithful options lines (traceLines options lines) := by
  unfold traceLines
  cases hrun : runLines options.arrayIndicator 1 lines .initial with
  | reached s => exact (Follows.initial.reached rfl hrun).faithful hrun
  | refused error last =>
      obtain ⟨before, line, after, hlines, hline, hstops⟩ := Follows.initial.refused rfl hrun
      rw [List.append_nil]
      exact hstops.faithful hrun hlines hline

/-- The trace of every log keeps account of its sections, also if a line is refused: its texts are about
events that do so, and about no others. -/
theorem traceLines_faithful (options : Options) (lines : List String) :
    ∃ events,
      (∀ others, List.Forall₂ Says ((traceLines options lines).map Event.text) others ↔
        others = events) ∧
      Faithful options lines events :=
  ⟨traceLines options lines, fun _ => forall₂_says_iff, faithful_traceLines options lines⟩

-- The section on the last line is announced, although its field is refused.
example :
    (traceLines {}
        ["solver",
          "[INFO][rank 0][MRI][begin-fast-steps]",
          "[INFO][rank 0][MRI][begin-step-attempt]",
          "[INFO][rank 0][MRI][end-step-attempt]",
          "[INFO][rank 0][MRI][begin-step-attempt] level = 1"]).map Event.text =
      ["TRACE line 1: not a log record, skipped",
        "DEBUG line 2: fast steps, time level 1",
        "DEBUG line 3: open `step-attempt` at depth 1",
        "DEBUG line 4: close `step-attempt` at depth 1",
        "DEBUG line 5: open `step-attempt` at depth 1"] := by
  decide +kernel

end SolverLog
