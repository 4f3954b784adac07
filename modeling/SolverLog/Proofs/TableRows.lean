import SolverLog.Proofs.Answers
import SolverLog.Proofs.HistoryJson
import SolverLog.Proofs.LineEnds
import SolverLog.Proofs.RoundTrip

/-!
# Tables are read back

A table of a history has one line for each point, and everything that the line shows of the point is
read back from it. The columns are filled up but never cut, and no number has a space in it, so the
spaces tell where the first three columns end; the value is whatever follows. It does not break the
line, because it comes from one line of the log, or from some lines of which it shows one after the
other.

* `Document.oneLine_of_ofText` — no value of a document has a line feed in its text.
* `Row.read?` — reads a line of a table; `Row.read?_point` — the line of any point is read back.
* `splitOn_table` — the lines of a table.
* `CommandLine.Command.answer_history_rows` — the table that a command line is answered with.
-/

namespace SolverLog

open Number

/-! ## Values on one line -/

/-- The lines of a text have no line feed. -/
theorem Text.not_mem_of_mem_lines {text line : String} (h : line ∈ lines text) :
    '\n' ∉ line.toList := by
  obtain ⟨closed, hclosed, rfl⟩ := List.mem_map.mp h
  rw [String.toList_ofList]
  have hpieces : ∀ piece ∈ text.toList.splitOn '\n', '\n' ∉ piece :=
    fun piece hpiece hfeed => (mem_of_mem_splitOn hpiece hfeed).2 rfl
  obtain ⟨pieces, last, hsplit⟩ :=
    (List.eq_nil_or_concat' (text.toList.splitOn '\n')).resolve_left (List.splitOn_ne_nil _ _)
  rw [hsplit] at hclosed hpieces
  rw [closeLines_append, List.mem_append] at hclosed
  rcases hclosed with hended | hlast
  · obtain ⟨piece, hpiece, rfl⟩ := List.mem_map.mp hended
    have hpiece' : '\n' ∉ piece := hpieces piece (List.mem_append_left _ hpiece)
    -- A carriage return that is dropped leaves an initial part of the piece.
    unfold withoutCarriageReturn
    split
    · exact fun hfeed => hpiece' (List.dropLast_subset _ hfeed)
    · exact hpiece'
  · split at hlast
    · cases hlast
    · rw [List.mem_singleton.mp hlast]
      exact hpieces last (List.mem_append_right _ List.mem_cons_self)

/-- The text of a value has no line feed. -/
def Value.OneLine (value : Value) : Prop :=
  '\n' ∉ value.display.toList

theorem Value.oneLine_integer (value : Int) : (Value.integer value).OneLine := by
  unfold OneLine
  rw [display]
  intro hfeed
  exact absurd (inNumber_of_mem_integerText _ hfeed) (by decide)

theorem Value.oneLine_ofLiteral {literal : String} (h : '\n' ∉ literal.toList) :
    (ofLiteral literal).OneLine := by
  apply (isLiteral_ofLiteral literal).not_mem_display (by decide)
  intro words hwords hfeed
  rw [eq_trim_of_ofLiteral hwords] at hfeed
  exact h (Text.mem_of_mem_trim hfeed)

theorem Value.displayItems_eq_map (items : List Value) : displayItems items = items.map display := by
  induction items with
  | nil => rfl
  | cons item rest ih => rw [displayItems, ih, List.map_cons]

theorem Value.oneLine_array {items : List Value} (h : ∀ item ∈ items, item.OneLine) :
    (Value.array items).OneLine := by
  have hitems : '\n' ∉ (", ".intercalate (displayItems items)).toList := by
    rw [String.toList_intercalate, displayItems_eq_map, List.map_map]
    refine Text.not_mem_intercalate (by decide) ?_
    intro piece hpiece
    obtain ⟨item, hitem, rfl⟩ := List.mem_map.mp hpiece
    exact h item hitem
  unfold OneLine
  rw [display, String.toList_append, String.toList_append, List.mem_append, List.mem_append]
  rintro ((hopen | hmem) | hclose)
  · exact absurd hopen (by decide)
  · exact hitems hmem
  · exact absurd hclose (by decide)

/-- A field that is decoded from a payload without line feeds, with lines after it, is on one line. -/
theorem Payload.oneLine_of_mem_decode {indicator written : String} {following : List String}
    (hwritten : '\n' ∉ written.toList) (hfollowing : ∀ line ∈ following, '\n' ∉ line.toList)
    {field : String × Value} (h : field ∈ decode indicator following written) :
    field.2.OneLine := by
  obtain ⟨key, text, hmem, rfl⟩ := mem_decode h
  show (valueOf indicator following key text).OneLine
  unfold valueOf
  split
  · apply Value.oneLine_array
    intro item hitem
    obtain ⟨line, hline, rfl⟩ := List.mem_map.mp hitem
    exact Value.oneLine_ofLiteral (hfollowing line (List.takeWhile_subset _ hline))
  · apply Value.oneLine_ofLiteral
    rw [String.toList_ofList]
    intro hfeed
    exact hwritten ((mem_fields hmem).2.1 _ hfeed).1

/-- No value of a document has a line feed in its text. -/
theorem Document.oneLine_of_ofText {options : Options} {text : String} {document : Document}
    (h : ofText options text = .ok document) {dict : Dict} (hhas : document.Has dict) {key : String}
    {held : Value} (hentry : (key, Node.value held) ∈ dict) : held.OneLine := by
  refine field_of_ofLines (P := fun field => field.2.OneLine) h ?_ Value.oneLine_integer hhas hentry
  intro record hrecord
  obtain ⟨line, following, header, hsuffix, hheader, hpayload⟩ :=
    Record.payload_of_mem_readAll hrecord
  obtain ⟨rankText, hwritten⟩ := Header.exists_written hheader
  rw [hpayload]
  intro field hfield
  apply Payload.oneLine_of_mem_decode hwritten.payload _ hfield
  intro other hother
  exact Text.not_mem_of_mem_lines (hsuffix.subset (List.mem_cons_of_mem _ hother))

namespace History

/-! ## Reading lines of tables -/

/-- What a line of a table shows. -/
structure Row where
  step : Option Int
  time : Option Binary64
  level : Int
  /-- The text of the value. -/
  value : String
deriving DecidableEq

/-- What the line of a point shows. -/
def Point.row (point : Point) : Row where
  step := point.step
  time := point.time
  level := point.level
  value := point.value.display

/-- Takes a column off a line: the spaces before it, and what is there up to the next space. -/
def takeColumn (line : List Char) : List Char × List Char :=
  (line.dropWhile (· = ' ')).span (· ≠ ' ')

/-- Reads an integer of any size. -/
def anyInteger? (text : List Char) : Option Int :=
  let (negative, digits) := takeSign text
  (natural? digits).map (signedValue negative)

/-- Reads what may be missing. -/
def unlessMissing? {α : Type} (read? : List Char → Option α) (text : List Char) :
    Option (Option α) :=
  if text = missing.toList then some none else (read? text).map some

/-- Reads a line of a table: three columns, two spaces and the value. -/
def Row.read? (line : List Char) : Option Row := do
  let (step, line) := takeColumn line
  let (time, line) := takeColumn line
  let (level, line) := takeColumn line
  let step ← unlessMissing? anyInteger? step
  let time ← unlessMissing? Binary64.read? time
  let level ← anyInteger? level
  let value ← Header.expect "  " line
  return { step, time, level, value := String.ofList value }

/-- A line of a table without its line feed. -/
def lineOf (step time level value : String) : List Char :=
  (alignRight 8 step).toList ++ ' ' :: ((alignRight 24 time).toList ++ ' ' ::
    ((alignRight 5 level).toList ++ ' ' :: ' ' :: value.toList))

theorem toList_tableLine (step time level value : String) :
    (tableLine step time level value).toList = lineOf step time level value ++ ['\n'] := by
  simp [tableLine, lineOf]

/-- A text that can stand in a column: there is something of it, and no space in it. -/
structure IsColumn (text : String) : Prop where
  ne_nil : text.toList ≠ []
  not_mem : ' ' ∉ text.toList

theorem isColumn_of_inNumber {text : String} (hne : text.toList ≠ [])
    (h : ∀ c ∈ text.toList, InNumber c) : IsColumn text := by
  refine ⟨hne, fun hspace => ?_⟩
  exact absurd (h _ hspace) (by decide)

/-- A column is taken off as it was before it was filled up. -/
theorem takeColumn_alignRight {text : String} (h : IsColumn text) (width : Nat) (rest : List Char) :
    takeColumn ((alignRight width text).toList ++ ' ' :: rest) = (text.toList, ' ' :: rest) := by
  have hspaces : ∀ c ∈ List.replicate (width - text.toList.length) ' ', decide (c = ' ') = true :=
    fun c hc => decide_eq_true (List.eq_of_mem_replicate hc)
  have htext : ∀ c ∈ text.toList, decide (c ≠ ' ') = true :=
    fun c hc => decide_eq_true fun heq => h.not_mem (heq ▸ hc)
  obtain ⟨first, more, hcons⟩ := List.exists_cons_of_ne_nil h.ne_nil
  have hfirst : decide (first = ' ') = false := by
    have hmem : first ∈ text.toList := by
      rw [hcons]
      exact List.mem_cons_self
    simpa using htext first hmem
  unfold takeColumn alignRight
  rw [String.toList_ofList, List.leftpad, List.append_assoc, List.dropWhile_append_of_pos hspaces,
    hcons, List.cons_append, List.dropWhile_cons_of_neg (by simp [hfirst]), ← List.cons_append, ← hcons]
  exact span_append htext (by simp)

theorem anyInteger?_integerText (value : Int) :
    anyInteger? (integerText value).toList = some value := by
  unfold anyInteger?
  rw [toList_integerText, takeSign_signed (head?_toDigits _)]
  simp only [natural?_toDigits, Option.map_some, signedValue_natAbs]

/-- What is missing or is there is read back, if no text of what is there is the mark of what is
missing. -/
theorem unlessMissing?_getD {α : Type} {read? : List Char → Option α} {write : α → String}
    (hread : ∀ a, read? (write a).toList = some a) (hmissing : read? missing.toList = none)
    (field : Option α) :
    unlessMissing? read? ((field.map write).getD missing).toList = some field := by
  cases field with
  | none => exact if_pos rfl
  | some a =>
      have hne : (write a).toList ≠ missing.toList := by
        intro heq
        have hsome := hread a
        rw [heq, hmissing] at hsome
        cases hsome
      show unlessMissing? read? (write a).toList = some (some a)
      unfold unlessMissing?
      rw [if_neg hne, hread, Option.map_some]

theorem isColumn_integerText (value : Int) : IsColumn (integerText value) := by
  apply isColumn_of_inNumber _ inNumber_of_mem_integerText
  intro hnil
  have hread := anyInteger?_integerText value
  rw [hnil] at hread
  cases hread

theorem isColumn_timeText (time : Binary64) : IsColumn (timeStyle.text time) := by
  apply isColumn_of_inNumber _ (timeStyle.inNumber_of_mem_text time)
  intro hnil
  have hread := timeStyle.read?_text time
  rw [hnil, show Binary64.read? [] = none from by decide] at hread
  cases hread

theorem isColumn_getD {α : Type} {write : α → String} (h : ∀ a, IsColumn (write a))
    (field : Option α) : IsColumn ((field.map write).getD missing) := by
  cases field with
  | none =>
      show IsColumn missing
      exact ⟨by decide, by decide⟩
  | some a => exact h a

/-- The line of a point without its line feed. -/
def Point.line (point : Point) : List Char :=
  lineOf ((point.step.map integerText).getD missing) ((point.time.map timeStyle.text).getD missing)
    (integerText point.level) point.value.display

/-- The line of any point is read back. -/
theorem Row.read?_point (point : Point) : Row.read? point.line = some point.row := by
  have hstep := takeColumn_alignRight (isColumn_getD isColumn_integerText point.step) 8
  have htime := takeColumn_alignRight (isColumn_getD isColumn_timeText point.time) 24
  have hlevel := takeColumn_alignRight (isColumn_integerText point.level) 5
  have hreadStep := unlessMissing?_getD anyInteger?_integerText (by decide) point.step
  have hreadTime := unlessMissing?_getD timeStyle.read?_text (by decide) point.time
  have hvalue : Header.expect "  " (' ' :: ' ' :: point.value.display.toList) =
      some point.value.display.toList := by
    simp [Header.expect, List.isPrefixOf?]
  -- Each column ends before the space that stands after it, and two of them stand after the last.
  have htimeColumn (rest : List Char) :
      takeColumn (' ' :: ((alignRight 24 ((point.time.map timeStyle.text).getD missing)).toList ++
        ' ' :: rest)) = takeColumn ((alignRight 24
          ((point.time.map timeStyle.text).getD missing)).toList ++ ' ' :: rest) := by
    simp [takeColumn]
  have hlevelColumn (rest : List Char) :
      takeColumn (' ' :: ((alignRight 5 (integerText point.level)).toList ++ ' ' :: rest)) =
        takeColumn ((alignRight 5 (integerText point.level)).toList ++ ' ' :: rest) := by
    simp [takeColumn]
  unfold Row.read? Point.line lineOf
  simp only [hstep, htimeColumn, htime, hlevelColumn, hlevel, hreadStep, hreadTime,
    anyInteger?_integerText, hvalue, Option.bind_eq_bind, Option.bind_some, String.ofList_toList]
  rfl

/-! ## The lines of a table -/

/-- Lines that are each ended by a line feed are split back. -/
theorem splitOn_lines {lines : List (List Char)} (h : ∀ line ∈ lines, '\n' ∉ line) :
    (lines.flatMap fun line => line ++ ['\n']).splitOn '\n' = lines ++ [[]] := by
  induction lines with
  | nil => rfl
  | cons line rest ih =>
      rw [List.forall_mem_cons] at h
      rw [List.flatMap_cons, List.append_assoc, List.singleton_append,
        List.splitOn_append_cons_self_of_not_mem h.1, ih h.2, List.cons_append]

theorem not_mem_alignRight {width : Nat} {text : String} (h : '\n' ∉ text.toList) :
    '\n' ∉ (alignRight width text).toList := by
  simp [alignRight, List.leftpad, h]

theorem not_mem_lineOf {step time level value : String} (hstep : '\n' ∉ step.toList)
    (htime : '\n' ∉ time.toList) (hlevel : '\n' ∉ level.toList) (hvalue : '\n' ∉ value.toList) :
    '\n' ∉ lineOf step time level value := by
  simp [lineOf, not_mem_alignRight, hstep, htime, hlevel, hvalue]

/-- A table is split into the line of headings and the lines of its points, in order. -/
theorem splitOn_table {key : String} (hkey : '\n' ∉ key.toList) {points : List Point}
    (hvalues : ∀ point ∈ points, point.value.OneLine) :
    (table key points).toList.splitOn '\n' =
      lineOf "step" "time" "level" key :: points.map Point.line ++ [[]] := by
  have hnumber {α : Type} {write : α → String} (h : ∀ a, ∀ c ∈ (write a).toList, InNumber c)
      (field : Option α) : '\n' ∉ ((field.map write).getD missing).toList := by
    cases field with
    | none =>
        show '\n' ∉ missing.toList
        decide
    | some a =>
        intro hfeed
        exact absurd (h a _ hfeed) (by decide)
  have hlines : ∀ line ∈ lineOf "step" "time" "level" key :: points.map Point.line,
      '\n' ∉ line := by
    intro line hline
    rcases List.mem_cons.mp hline with rfl | hline
    · exact not_mem_lineOf (by decide) (by decide) (by decide) hkey
    · obtain ⟨point, hpoint, rfl⟩ := List.mem_map.mp hline
      apply not_mem_lineOf
      · exact hnumber (fun _ => inNumber_of_mem_integerText) point.step
      · exact hnumber timeStyle.inNumber_of_mem_text point.time
      · exact hnumber (fun _ => inNumber_of_mem_integerText) (some point.level)
      · exact hvalues point hpoint
  rw [← splitOn_lines hlines]
  congr 1
  have hpoint (point : Point) : point.tableLine.toList = point.line ++ ['\n'] :=
    toList_tableLine _ _ _ _
  unfold table
  rw [String.toList_append, toList_tableLine, String.toList_join, List.flatMap_cons,
    List.flatMap_map, List.flatMap_map]
  simp only [hpoint]

end History

open History

/-- The table that a command is answered with is split into a line of headings and one line for each
point, in order, and each point is read back from its line: its step and its time, or that they are
missing, its level and the text of its value. -/
theorem CommandLine.Command.answer_history_rows {path : String} {options : Options} {query : Query}
    {content : FileContent} (hkey : '\n' ∉ query.key.toList)
    (hexit : ((Command.history path options query false).answer content).exit = 0) :
    ∃ document, Document.ofFile options content = .ok document ∧ ∃ heading rows,
      ((Command.history path options query false).answer content).output.toList.splitOn '\n' =
          heading :: rows ++ [[]] ∧
        heading ++ ['\n'] = (tableLine "step" "time" "level" query.key).toList ∧
          rows.map Row.read? =
            (points query document.steps).map fun point => some point.row := by
  obtain ⟨document, hfile⟩ := exit_answer_eq_zero_iff.mp hexit
  obtain ⟨text, -, hread⟩ := Document.ofFile_eq_ok_iff.mp hfile
  have hvalues : ∀ point ∈ points query document.steps, point.value.OneLine := by
    intro point hpoint
    obtain ⟨step, hstep, visited, hinside, hreports⟩ := exists_inside_of_mem_points hpoint
    exact Document.oneLine_of_ofText hread (Or.inr ⟨step, hstep, hinside⟩)
      (Entries.mem_of_value? hreports.value)
  rw [answer_of_ok hfile]
  refine ⟨document, hfile, _, _, splitOn_table hkey hvalues, (toList_tableLine _ _ _ _).symm, ?_⟩
  rw [List.map_map]
  exact List.map_congr_left fun point _ => Row.read?_point point

/-- A log with two steps. The first has no time, and an array with a dash in it; the second has no
number, and an empty array. -/
def dashedLog : String :=
  "[I][rank 0][MRI][begin-step-attempt] step = -7, v (:) =\r\n 1.5\r\n- 2  -\r\n" ++
    "[I][rank 0][MRI][end-step-attempt]\n" ++
    "[I][rank 0][MRI][begin-step-attempt] tn = nan, v (:) =\n"

/-- A file with that log. -/
def dashedFile : FileContent :=
  .ok dashedLog.toUTF8

/-- The document of that log. -/
def dashed : Document where
  globals := []
  steps :=
    [[(Step.levelKey, .value (.integer 0)), ("step", .value (.integer (-7))),
      ("v (:)", .value (.array [.ofLiteral "1.5", .text "- 2  -"]))],
    [(Step.levelKey, .value (.integer 0)), ("tn", .value (.real .nan)),
      ("v (:)", .value (.array []))]]

/-- The rows of the table of that file are read back. -/
theorem CommandLine.Command.answer_history_rows_dashed :
    '\n' ∉ "v (:)".toList ∧
      ((history "log" {} { key := "v (:)" } false).answer dashedFile).exit = 0 ∧
        ∃ heading rows,
          ((history "log" {} { key := "v (:)" } false).answer
            dashedFile).output.toList.splitOn '\n' = heading :: rows ++ [[]] ∧
          rows.map Row.read? =
            [some ⟨some (-7), none, 0, "[1.5, - 2  -]"⟩, some ⟨none, some .nan, 0, "[]"⟩] := by
  have hkey : '\n' ∉ "v (:)".toList := by decide
  have hread : Document.ofText {} dashedLog = .ok dashed := by decide +kernel
  have hfile : Document.ofFile {} dashedFile = .ok dashed :=
    Document.ofFile_eq_ok_iff.mpr ⟨dashedLog, rfl, hread⟩
  have hexit : ((history "log" {} { key := "v (:)" } false).answer dashedFile).exit = 0 :=
    exit_answer_eq_zero_iff.mpr ⟨dashed, hfile⟩
  have hrows : (points { key := "v (:)" } dashed.steps).map (fun point => some point.row) =
      [some ⟨some (-7), none, 0, "[1.5, - 2  -]"⟩, some ⟨none, some .nan, 0, "[]"⟩] := by
    decide +kernel
  obtain ⟨document, hdocument, heading, rows, hsplit, -, hmap⟩ := answer_history_rows hkey hexit
  cases hfile.symm.trans hdocument
  exact ⟨hkey, hexit, heading, rows, hsplit, hmap.trans hrows⟩

end SolverLog
