import SolverLog.History.Walk
import SolverLog.Proofs.Draft

/-!
# The attempts of a log

An attempt is a record that begins a step. `Draft.attempts` lists those of a log, each with the line
of the record, the place of its step in the document, and what is open at that line. An attempt is
reachable if no section is open there, or if it is a fast step of a reachable attempt: a region of
fast steps is open, and the innermost open step is that of a reachable attempt.
-/

namespace SolverLog

/-- A record that begins a step. -/
structure Attempt where
  /-- The line of the record. -/
  line : Nat
  /-- Where the dictionary of the step stands. -/
  path : Path
  /-- How many regions of fast steps are open at that line. -/
  level : Nat
  /-- Whether no section is open at that line. -/
  outermost : Bool
  reachable : Bool
deriving DecidableEq

/-- Whether an attempt that begins now is reachable, given the attempts before it. -/
def Draft.reaches (draft : Draft) (done : List Attempt) : Bool :=
  draft.openings.isEmpty ||
    draft.fastSteps ≠ 0 && (draft.openings.find? (·.opened = .step)).any fun host =>
      done.any fun attempt => attempt.line = host.line && attempt.reachable

/-- The attempt of a record that begins a step at a path. -/
def Draft.attempt (draft : Draft) (line : Nat) (done : List Attempt) (path : Path) : Attempt where
  line := line
  path := path
  level := draft.fastSteps
  outermost := draft.openings.isEmpty
  reachable := draft.reaches done

/-- The attempts after a record that leads to the next draft. -/
def Draft.attemptsWith (draft : Draft) (line : Nat) (record : Record) (done : List Attempt)
    (next : Draft) : List Attempt :=
  if record.label = "begin-step-attempt" then done ++ [draft.attempt line done next.top] else done

/-- The attempts after the lines of a log are read from the line of that number on, in order. -/
def Draft.attempts (indicator : String) : Nat → List String → Draft → List Attempt → List Attempt
  | _, [], _, done => done
  | number, line :: following, draft, done =>
    match Record.read? indicator line following with
    | none => attempts indicator (number + 1) following draft done
    | some record =>
      match draft.readRecord number record with
      | .ok next =>
        attempts indicator (number + 1) following next (draft.attemptsWith number record done next)
      | .error _ => done

/-- The attempts of a log, in order. -/
def Document.attempts (options : Options) (lines : List String) : List Attempt :=
  Draft.attempts options.arrayIndicator 1 lines .empty []

/-! ## What a line says of an attempt -/

/-- The labels of the records among lines, in order. -/
def labelsOf (lines : List String) : List String :=
  (lines.filterMap Header.read?).map Header.label

/-- How many more regions of fast steps lines open than they close. -/
def regionsOf (lines : List String) : Int :=
  (labelsOf lines).count "begin-fast-steps" - (labelsOf lines).count "end-fast-steps"

/-- The attempt is one of a log: its line begins a step, and its level is the number of the regions
that the lines before it leave open. -/
structure Attempt.IsOf (lines : List String) (attempt : Attempt) : Prop where
  line_pos : 0 < attempt.line
  begins : ∃ line header, lines[attempt.line - 1]? = some line ∧ Header.read? line = some header ∧
    header.label = "begin-step-attempt"
  level_eq : (attempt.level : Int) = regionsOf (lines.take (attempt.line - 1))

theorem labelsOf_append (lines more : List String) :
    labelsOf (lines ++ more) = labelsOf lines ++ labelsOf more := by
  simp [labelsOf]

theorem regionsOf_append (lines more : List String) :
    regionsOf (lines ++ more) = regionsOf lines + regionsOf more := by
  simp only [regionsOf, labelsOf_append, List.count_append, Nat.cast_add]
  omega

theorem regionsOf_commentary {line : String} (h : Header.read? line = none) :
    regionsOf [line] = 0 := by
  simp [regionsOf, labelsOf, h]

theorem regionsOf_record {line : String} {header : Header} (h : Header.read? line = some header) :
    regionsOf [line] = (if header.label = "begin-fast-steps" then 1 else 0) -
      if header.label = "end-fast-steps" then 1 else 0 := by
  simp [regionsOf, labelsOf, h, List.count_singleton]

namespace Attempt

variable {lines more : List String} {attempt : Attempt}

/-- The line of an attempt is there. -/
theorem IsOf.line_le (h : attempt.IsOf lines) : attempt.line ≤ lines.length := by
  obtain ⟨line, _, hline, -⟩ := h.begins
  have hlt := (List.getElem?_eq_some_iff.mp hline).1
  omega

/-- What a line says of an attempt does not depend on the lines after it. -/
theorem IsOf.append (h : attempt.IsOf lines) (more : List String) :
    attempt.IsOf (lines ++ more) := by
  obtain ⟨line, header, hline, hheader, hlabel⟩ := h.begins
  have hlt := (List.getElem?_eq_some_iff.mp hline).1
  refine ⟨h.line_pos, ⟨line, header, ?_, hheader, hlabel⟩, ?_⟩
  · rw [List.getElem?_append_left hlt, hline]
  · rw [List.take_append_of_le_length (Nat.le_of_lt hlt)]
    exact h.level_eq

end Attempt

end SolverLog
