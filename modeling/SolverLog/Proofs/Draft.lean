import SolverLog.Proofs.Path

/-!
# Reading a log into its document

A `Draft` is read without a store: it is the document so far, with the path of the dictionary of
each open section. Every record changes the document at one of those paths.
-/

namespace SolverLog

/-- A section that is open, with the path of its dictionary. -/
structure Opening where
  path : Path
  opened : Section
  /-- The line that opened the section. -/
  line : Nat

/-- A document while its log is read. -/
structure Draft where
  document : Document
  /-- The open sections, innermost first. -/
  openings : List Opening
  /-- How many regions of fast steps are open. -/
  fastSteps : Nat

namespace Draft

/-- The draft before the first line. -/
def empty : Draft where
  document := { globals := [], steps := [] }
  openings := []
  fastSteps := 0

/-- The path of the innermost open section, or of the globals. -/
def top (draft : Draft) : Path :=
  match draft.openings with
  | [] => .globals
  | opening :: _ => opening.path

/-- The path of the innermost open step, or the top path if no step is open. -/
def host (draft : Draft) : Path :=
  match draft.openings.find? (·.opened = .step) with
  | some opening => opening.path
  | none => draft.top

/-- The innermost open step, where the open sections come from other items. -/
theorem find?_step_map {α : Type} (opened : α → Section) {opening : α → Opening}
    (h : ∀ item, (opening item).opened = opened item) (items : List α) :
    (items.map opening).find? (·.opened = .step) =
      (items.find? (opened · = .step)).map opening := by
  have hcomp : (fun opening : Opening => decide (opening.opened = .step)) ∘ opening =
      fun item => decide (opened item = .step) := by
    funext item
    simp [h]
  rw [List.find?_map, hcomp]

/-- The names of the open sections from the outermost to the innermost. -/
def names (draft : Draft) : String :=
  match draft.openings with
  | [] => "<root>"
  | openings => "/".intercalate (openings.reverse.map (·.opened.name))

/-- The dictionary at a path. -/
def dictAt (draft : Draft) (path : Path) : Dict :=
  (draft.document.at? path).getD []

/-- Appends an entry to the dictionary at a path. -/
def append (draft : Draft) (path : Path) (key : String) (node : Node) : Draft :=
  { draft with document := draft.document.modify path (· ++ [(key, node)]) }

/-- Replaces what the dictionary at a path holds at a key. -/
def replace (draft : Draft) (path : Path) (key : String) (node : Node) : Draft :=
  { draft with document := draft.document.modify path fun dict => Entries.put dict key node }

/-- Opens a section whose dictionary is at a path. -/
def enterAt (draft : Draft) (line : Nat) (opened : Section) (path : Path) : Draft :=
  { draft with openings := { path, opened, line } :: draft.openings }

/-- Sets a field of the innermost open section. -/
def setField (line : Nat) (draft : Draft) (field : String × Value) : Except StructureError Draft :=
  match (draft.dictAt draft.top).value? field.1 with
  | some _ => .error (.duplicateKey line field.1 draft.names)
  | none => .ok (draft.append draft.top field.1 (.value field.2))

/-- Sets the fields of the innermost open section in order. -/
def setFields (line : Nat) (draft : Draft) (fields : Payload) : Except StructureError Draft :=
  fields.foldlM (setField line) draft

theorem setFields_cons (line : Nat) (draft : Draft) (field : String × Value) (rest : Payload) :
    draft.setFields line (field :: rest) =
      (draft.setField line field).bind fun next => next.setFields line rest := by
  unfold setFields
  rw [List.foldlM_cons]
  rfl

/-- Opens the section at a key of the innermost open one. -/
def enterMember (draft : Draft) (line : Nat) (name : String) : Except StructureError Draft :=
  let path := Path.member draft.top name
  match (draft.dictAt draft.top).value? name with
  | none => .ok ((draft.append draft.top name (.dict [])).enterAt line (.plain name) path)
  | some (.dict _) => .ok (draft.enterAt line (.plain name) path)
  | some _ => .error (.duplicateKey line name draft.names)

/-- The new dictionary of a section. That of a step has the time level. -/
def newDict (draft : Draft) : Section → Dict
  | .step => [(Step.levelKey, .value (.integer draft.fastSteps))]
  | .plain _ | .entry _ => []

/-- Opens a section with a new dictionary at the end of the list at a key of the dictionary at a
path. -/
def enterElement (draft : Draft) (line : Nat) (opened : Section) (parent : Path) (key : String) :
    Except StructureError Draft :=
  let fresh := draft.newDict opened
  match (draft.dictAt parent).value? key with
  | none =>
    .ok ((draft.append parent key (.list [fresh])).enterAt line opened (.element parent key 0))
  | some (.list items) =>
    .ok ((draft.replace parent key (.list (items ++ [fresh]))).enterAt line opened
      (.element parent key items.length))
  | some _ => .error (.duplicateKey line key draft.names)

/-- Opens a step among the top-level steps. -/
def enterTopLevel (draft : Draft) (line : Nat) : Draft :=
  let steps := draft.document.steps
  { draft with document.steps := steps ++ [draft.newDict .step] }.enterAt line .step
    (.step steps.length)

/-- Opens a section. -/
def enter (draft : Draft) (line : Nat) : Section → Except StructureError Draft
  | .plain name => draft.enterMember line name
  | .entry list => draft.enterElement line (.entry list) draft.top list
  | .step =>
    if draft.openings.isEmpty then .ok (draft.enterTopLevel line)
    else if draft.fastSteps = 0 then draft.enterElement line .step draft.top Step.evolveKey
    else draft.enterElement line .step draft.host (Step.timeLevelKey draft.fastSteps)

/-- Reads a record. -/
def readRecord (line : Nat) (record : Record) (draft : Draft) : Except StructureError Draft :=
  match Marker.ofLabel record.label with
  | .remark => draft.setFields line record.payload
  | .opens opened => (draft.enter line opened).bind (·.setFields line record.payload)
  | .closes closed =>
    match draft.openings with
    | [] => .error (.unexpectedEnd line closed.name)
    | opening :: _ =>
      if opening.opened = closed then
        (draft.setFields line record.payload).map fun filled =>
          { filled with openings := filled.openings.tail }
      else .error (.mismatchedEnd line closed.name opening.opened.name)
  | .beginsFastSteps =>
    (draft.setFields line record.payload).map fun filled =>
      { filled with fastSteps := filled.fastSteps + 1 }
  | .endsFastSteps =>
    if draft.fastSteps = 0 then .error (.unbalancedFastSteps line)
    else
      (draft.setFields line record.payload).map fun filled =>
        { filled with fastSteps := filled.fastSteps - 1 }

/-- Reads the lines of a log from the line of that number on. -/
def readLines (indicator : String) : Nat → List String → Draft → Except StructureError Draft
  | _, [], draft => .ok draft
  | number, line :: following, draft =>
    match Record.read? indicator line following with
    | none => readLines indicator (number + 1) following draft
    | some record =>
      (draft.readRecord number record).bind (readLines indicator (number + 1) following)

/-- The document of a draft at the end of a log. -/
def finish (options : Options) (draft : Draft) : Except StructureError Document :=
  match draft.openings with
  | [] => .ok draft.document
  | opening :: _ =>
    if options.requireClosed then .error (.unclosedSection opening.line opening.opened.name)
    else .ok draft.document

/-- Reads the lines of a log. -/
def ofLines (options : Options) (lines : List String) : Except StructureError Document :=
  (readLines options.arrayIndicator 1 lines empty).bind (finish options)

end Draft

end SolverLog
