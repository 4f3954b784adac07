import SolverLog.Proofs.Behind
import SolverLog.Proofs.Conservation

/-!
# Logs one after the other

A log that closes all it opens leaves nothing to the next one but its document. So the log after it
is read as on its own, behind that document, if it does not begin with lines that an array of the
first log might go on into.

* `Draft.readLines_append` — reading two logs is reading the one and then the other.
* `fastSteps_of_runLines` — the regions of fast steps that a log leaves open.
* `Document.ofLines_append_closed` — the document, or the error, of two logs one after the other.
-/

namespace SolverLog

/-- A log without lines, or whose first line belongs to no array. -/
def StartsAfresh (lines : List String) : Prop :=
  ∀ line ∈ lines.head?, Text.trim line.toList = [] ∨ isRecordLine line = true

/-- A log that begins and ends as many regions of fast steps. -/
def BalancedFastSteps (indicator : String) (lines : List String) : Prop :=
  (Record.readAll indicator lines).countP (·.label = "begin-fast-steps") =
    (Record.readAll indicator lines).countP (·.label = "end-fast-steps")

instance (lines : List String) : Decidable (StartsAfresh lines) :=
  inferInstanceAs (Decidable (∀ line ∈ lines.head?, _ ∨ _))

instance (indicator : String) (lines : List String) :
    Decidable (BalancedFastSteps indicator lines) :=
  inferInstanceAs (Decidable (_ = _))

/-! ## From one log to the next -/

section Seam

variable {second : List String} (hsecond : StartsAfresh second)
include hsecond

/-- No array goes on into a log that starts afresh. -/
theorem Payload.arrayOf_append (following : List String) :
    Payload.arrayOf (following ++ second) = Payload.arrayOf following := by
  have hnone : second.takeWhile Payload.isArrayLine = [] := by
    cases second with
    | nil => rfl
    | cons line rest =>
        have hline : Payload.isArrayLine line = false := by
          rcases hsecond line rfl with hblank | hrecord
          · simp [isArrayLine, hblank]
          · simp [isArrayLine, hrecord]
        rw [List.takeWhile_cons_of_neg (by simp [hline])]
  rcases Payload.arrayOf_append_cases following second with hends | hgoesOn
  · exact hends
  · rw [hgoesOn, hnone, List.map_nil, List.append_nil]
    rfl

theorem Record.read?_append (indicator line : String) (following : List String) :
    Record.read? indicator line (following ++ second) = Record.read? indicator line following := by
  simp only [Record.read?, Payload.decode, Payload.valueOf, Payload.arrayOf_append hsecond]

/-- A log in two parts is read one part after the other. -/
theorem Draft.readLines_append (indicator : String) (number : Nat) (first : List String)
    (draft : Draft) :
    Draft.readLines indicator number (first ++ second) draft =
      (Draft.readLines indicator number first draft).bind
        (Draft.readLines indicator (number + first.length) second) := by
  induction first generalizing number draft with
  | nil => rfl
  | cons line following ih =>
      have hlength : number + 1 + following.length = number + (line :: following).length := by
        rw [List.length_cons]
        omega
      simp only [List.cons_append, Draft.readLines, Record.read?_append hsecond]
      cases Record.read? indicator line following with
      | none => rw [ih, hlength]
      | some record =>
          show (Draft.readRecord number record draft).bind _ =
            ((Draft.readRecord number record draft).bind _).bind _
          cases Draft.readRecord number record draft with
          | error error => rfl
          | ok next =>
              show Draft.readLines indicator (number + 1) (following ++ second) next =
                (Draft.readLines indicator (number + 1) following next).bind _
              rw [ih, hlength]

end Seam

namespace Builder

/-! ## What a log leaves open -/

theorem RecordStep.fastSteps_ne_zero {line : Nat} {record : Record} {s s' : State}
    (hstep : RecordStep line record s s') (hends : record.label = "end-fast-steps") :
    s.fastSteps ≠ 0 := by
  have hmarker := Marker.ofLabel_eq_endsFastSteps.mpr hends
  cases hstep with
  | endsFastSteps _ hopen => exact hopen
  | remark hother | opens hother | closes hother | beginsFastSteps hother =>
      rw [hmarker] at hother
      cases hother

theorem RecordStep.fastSteps_add {line : Nat} {record : Record} {s s' : State}
    (hstep : RecordStep line record s s') :
    s'.fastSteps + (if record.label = "end-fast-steps" then 1 else 0) =
      s.fastSteps + (if record.label = "begin-fast-steps" then 1 else 0) := by
  rw [hstep.fastSteps_eq]
  unfold Record.regionsAfter
  by_cases hbegins : record.label = "begin-fast-steps"
  · simp [hbegins]
  · by_cases hends : record.label = "end-fast-steps"
    · have hopen := hstep.fastSteps_ne_zero hends
      rw [if_neg hbegins, if_pos hends, if_pos hends, if_neg hbegins]
      omega
    · simp [hbegins, hends]

/-- The regions of fast steps that are open after some lines, and those that the lines end, are those
that were open before, and those that the lines begin. -/
theorem fastSteps_of_runLines {indicator : String} {number : Nat} {lines : List String} {s s' : State}
    (h : runLines indicator number lines s = .reached s') :
    s'.fastSteps + (Record.readAll indicator lines).countP (·.label = "end-fast-steps") =
      s.fastSteps + (Record.readAll indicator lines).countP (·.label = "begin-fast-steps") := by
  induction lines generalizing number s with
  | nil =>
      cases h
      rfl
  | cons line following ih =>
      obtain ⟨middle, hline, hfollowing⟩ := runLines_cons_reached h
      have hrest := ih hfollowing
      rcases recordStep_of_run_ofLine hline with ⟨hread, rfl⟩ | ⟨record, hread, hstep⟩
      · simpa only [Record.readAll, hread, Option.toList_none, List.nil_append] using hrest
      · have hadd := hstep.fastSteps_add
        simp only [Record.readAll, hread, Option.toList_some, List.singleton_append,
          List.countP_cons, decide_eq_true_eq]
        omega

/-- An outcome comes to the same document, or the same error, as what draws it. -/
theorem Outcome.DrawnBy.finish_eq {outcome : Outcome} {result : Except StructureError Draft}
    (h : outcome.DrawnBy result) (options : Options) :
    outcome.finish options = result.bind (Draft.finish options) := by
  cases outcome with
  | refused error last =>
      have hresult : result = .error error := h
      rw [hresult]
      rfl
  | reached s =>
      obtain ⟨path, draft, rfl, hdraws⟩ := h
      exact hdraws.finish options

end Builder

namespace Draft

variable {options : Options} {draft : Draft} {document : Document}

theorem document_of_finish (h : draft.finish options = .ok document) : draft.document = document := by
  unfold finish at h
  split at h
  · cases h
    rfl
  · split at h
    · cases h
    · cases h
      rfl

/-- Where sections have to be closed, none is open at the end of a log that has a document. -/
theorem openings_of_finish (hclosed : options.requireClosed = true)
    (h : draft.finish options = .ok document) : draft.openings = [] := by
  unfold finish at h
  split at h
  · next hopenings => exact hopenings
  · simp [hclosed] at h

/-- A draft in which nothing is open is the empty one behind its document. -/
theorem eq_behind_empty (hopenings : draft.openings = []) (hfast : draft.fastSteps = 0)
    (lines : Nat) : draft = empty.behind draft.document lines := by
  cases draft with
  | mk document openings fastSteps =>
      cases hopenings
      cases hfast
      simp [behind, empty, Document.append]

end Draft

/-! ## Two logs -/

variable {options : Options} {first second : List String} {front : Document}

/-- What is left of a log that closes all it opens is its document. -/
theorem Draft.readLines_of_closed
    (hfirst : Document.ofLines { options with requireClosed := true } first = .ok front)
    (hfast : BalancedFastSteps options.arrayIndicator first) :
    Draft.readLines options.arrayIndicator 1 first .empty =
      .ok (Draft.empty.behind front first.length) := by
  have hdrawn := Builder.Draws.initial.lines options.arrayIndicator 1 first
  cases hrun : Builder.runLines options.arrayIndicator 1 first .initial with
  | refused error last =>
      unfold Document.ofLines at hfirst
      rw [hrun] at hfirst
      cases hfirst
  | reached s =>
      have hbalance := Builder.fastSteps_of_runLines hrun
      rw [hrun] at hdrawn
      obtain ⟨path, draft, hread, hdraws⟩ := hdrawn
      have hfinish : draft.finish { options with requireClosed := true } = .ok front := by
        rw [← hdraws.finish]
        unfold Document.ofLines at hfirst
        rw [hrun] at hfirst
        exact hfirst
      have hzero : draft.fastSteps = 0 := by
        have hinitial : Builder.State.initial.fastSteps = 0 := rfl
        unfold BalancedFastSteps at hfast
        rw [hdraws.fastSteps_eq]
        omega
      rw [hread, ← Draft.document_of_finish hfinish,
        ← Draft.eq_behind_empty (Draft.openings_of_finish rfl hfinish) hzero]

/-- What is read of a log is clear of a document that has no globals, or none in common with the
document of the log. -/
theorem Draft.clear_of_ofLines
    (h : front.globals = [] ∨
      ∃ document, Document.ofLines options second = .ok document ∧ front.Apart document) :
    Draft.Clear front (Draft.readLines options.arrayIndicator 1 second .empty) := by
  have hfinish := (Builder.Draws.initial.lines options.arrayIndicator 1 second).finish_eq options
  cases hread : Draft.readLines options.arrayIndicator 1 second .empty with
  | error error =>
      rw [hread] at hfinish
      rcases h with hglobals | ⟨document, hdocument, -⟩
      · exact hglobals
      · cases hdocument.symm.trans hfinish
  | ok draft =>
      rw [hread] at hfinish
      rcases h with hglobals | ⟨document, hdocument, hapart⟩
      · intro key hkey
        rw [hglobals] at hkey
        cases hkey
      · have hdraft : draft.document = document :=
          Draft.document_of_finish (hfinish.symm.trans hdocument)
        show front.Apart draft.document
        rw [hdraft]
        exact hapart

/-- A log that follows a closed one is read as on its own, behind its document. -/
theorem Document.ofLines_append_of_clear
    (hfirst : Document.ofLines { options with requireClosed := true } first = .ok front)
    (hfast : BalancedFastSteps options.arrayIndicator first)
    (hsecond : StartsAfresh second)
    (hclear : Draft.Clear front (Draft.readLines options.arrayIndicator 1 second .empty)) :
    Document.ofLines options (first ++ second) =
      later first.length front.append (Document.ofLines options second) := by
  have hdocument : ∀ lines, Document.ofLines options lines =
      (Draft.readLines options.arrayIndicator 1 lines .empty).bind (Draft.finish options) :=
    fun lines => (Builder.Draws.initial.lines options.arrayIndicator 1 lines).finish_eq options
  rw [hdocument, hdocument, Draft.readLines_append hsecond, Draft.readLines_of_closed hfirst hfast]
  show (Draft.readLines options.arrayIndicator (1 + first.length) second
    (Draft.empty.behind front first.length)).bind (Draft.finish options) = _
  rw [(Builder.readsBehind_lines options.arrayIndicator 1 second).eq .initial hclear]
  exact later_bind fun draft _ => Builder.finish_behind options front first.length draft

/-- A log that closes its sections and its regions of fast steps, and another log after it that starts
afresh. If the first one sets no globals, the second one has its document behind that of the first
one, or its error at a later line. If the documents of both have no key of the globals in common, the
one comes behind the other. -/
theorem Document.ofLines_append_closed
    (hfirst : Document.ofLines { options with requireClosed := true } first = .ok front)
    (hfast : BalancedFastSteps options.arrayIndicator first)
    (hsecond : StartsAfresh second) :
    (front.globals = [] →
      Document.ofLines options (first ++ second) =
        match Document.ofLines options second with
        | .ok document =>
          .ok { globals := document.globals, steps := front.steps ++ document.steps }
        | .error error => .error (error.mapLine (· + first.length))) ∧
    (∀ document, Document.ofLines options second = .ok document →
      (∀ key ∈ front.globals.keys, key ∉ document.globals.keys) →
        Document.ofLines options (first ++ second) =
          .ok { globals := front.globals ++ document.globals,
                steps := front.steps ++ document.steps }) := by
  refine ⟨?_, ?_⟩
  · intro hglobals
    rw [ofLines_append_of_clear hfirst hfast hsecond (Draft.clear_of_ofLines (.inl hglobals))]
    cases Document.ofLines options second with
    | error error => rfl
    | ok document => simp only [later, Document.append, hglobals, List.nil_append]
  · intro document hdocument hapart
    rw [ofLines_append_of_clear hfirst hfast hsecond
      (Draft.clear_of_ofLines (.inr ⟨document, hdocument, hapart⟩)), hdocument]
    rfl

/-- A log that closes all it opens and sets no globals. An array ends it. -/
def closedLog : List String :=
  ["[INFO][rank 0][MRI][begin-step-attempt] h = 2",
    "[INFO][rank 0][MRI][begin-fast-steps]",
    "[INFO][rank 0][ERK][begin-step-attempt]",
    "[INFO][rank 0][ERK][end-step-attempt]",
    "[INFO][rank 0][MRI][end-fast-steps]",
    "[INFO][rank 0][MRI][end-step-attempt] y(:) =",
    "1"]

/-- The step of that log. -/
def closedStep : Dict :=
  [(Step.levelKey, .value (.integer 0)),
    ("h", .value (.integer 2)),
    (Step.timeLevelKey 1, .list [[(Step.levelKey, .value (.integer 1))]]),
    ("y(:)", .value (.array [.integer 1]))]

/-- A log that ends a section that is not open. -/
def unopenedLog : List String :=
  ["[INFO][rank 0][MRI][begin-step-attempt]",
    "[INFO][rank 0][MRI][end-step-attempt]",
    "[INFO][rank 0][MRI][end-nls]"]

/-- A log that sets a global and has a step. -/
def setupLog (key : String) : List String :=
  ["[INFO][rank 0][MRI][setup] " ++ key ++ " = 1",
    "[INFO][rank 0][MRI][begin-step-attempt]",
    "[INFO][rank 0][MRI][end-step-attempt]"]

/-- The document of that log. -/
def setupDocument (key : String) : Document where
  globals := [(key, .value (.integer 1))]
  steps := [[(Step.levelKey, .value (.integer 0))]]

/-- The error of the second log comes on the tenth line; and two logs that set different globals. -/
theorem Document.ofLines_append_closed_twice :
    Document.ofLines {} (closedLog ++ unopenedLog) = .error (.unexpectedEnd 10 "nls") ∧
      Document.ofLines {} (setupLog "a" ++ setupLog "b") =
        .ok { globals := [("a", .value (.integer 1)), ("b", .value (.integer 1))],
              steps := [[(Step.levelKey, .value (.integer 0))],
                [(Step.levelKey, .value (.integer 0))]] } := by
  have hclosed : Document.ofLines { requireClosed := true } closedLog =
      .ok { globals := [], steps := [closedStep] } := by decide +kernel
  have hunopened : Document.ofLines {} unopenedLog = .error (.unexpectedEnd 3 "nls") := by
    decide +kernel
  have hfirst : Document.ofLines { requireClosed := true } (setupLog "a") =
      .ok (setupDocument "a") := by decide +kernel
  have hsecond : Document.ofLines {} (setupLog "b") = .ok (setupDocument "b") := by decide +kernel
  constructor
  · rw [(Document.ofLines_append_closed hclosed (by decide +kernel) (by decide +kernel)).1 rfl,
      hunopened]
    rfl
  · exact (Document.ofLines_append_closed hfirst (by decide +kernel) (by decide +kernel)).2 _ hsecond
      (by decide)

end SolverLog
