import SolverLog.Proofs.Arrays
import SolverLog.Proofs.Grammar
import SolverLog.Proofs.Literals

/-!
# Line breaks and blanks at the ends of lines

What a line says does not depend on the blanks at its end, nor on those around commentary, so it does not
matter how the lines of a log are broken in its text.

* `ReadAlike` — lines that are read alike, and `ReadAlike.append_blanks`: a line with blanks behind it.
* `Document.ofLines_congr` — logs whose lines are read alike.
* `Document.ofText_eq_pieces` — to read a text is to split it at the line feeds.
* `Document.ofText_joined` — a text that is joined from the lines of a log.
-/

namespace SolverLog

/-! ## Texts with blanks behind them -/

/-- Blanks that can stand at the end of a line. -/
def Text.AreBlanks (text : List Char) : Prop :=
  ∀ c ∈ text, isBlank c = true ∧ c ≠ '\n'

instance (text : List Char) : Decidable (Text.AreBlanks text) :=
  List.decidableBAll _ text

namespace Text

variable {text more blanks rest : List Char}

theorem AreBlanks.append (h : AreBlanks text) (h' : AreBlanks more) : AreBlanks (text ++ more) := by
  intro c hc
  exact (List.mem_append.mp hc).elim (h c) (h' c)

theorem AreBlanks.not_mem (h : AreBlanks blanks) {c : Char} (hc : isBlank c = false) : c ∉ blanks := by
  intro hmem
  rw [(h c hmem).1] at hc
  cases hc

theorem AreBlanks.trim_append (h : AreBlanks blanks) (text : List Char) :
    trim (text ++ blanks) = trim text :=
  trim_append_blanks (fun c hc => (h c hc).1) text

/-- What is behind the last separator goes on with the last piece. -/
theorem splitOn_append_of_not_mem {separator : Char} (h : separator ∉ more) (text : List Char) :
    ∃ pieces last, text.splitOn separator = pieces ++ [last] ∧
      (text ++ more).splitOn separator = pieces ++ [last ++ more] := by
  induction text with
  | nil => exact ⟨[], [], rfl, List.splitOn_eq_singleton h⟩
  | cons first rest ih =>
      obtain ⟨pieces, last, hrest, hmore⟩ := ih
      rw [List.cons_append, List.splitOn_cons_eq_if_modifyHead, List.splitOn_cons_eq_if_modifyHead,
        hrest, hmore]
      split
      · exact ⟨[] :: pieces, last, rfl, rfl⟩
      · cases pieces with
        | nil => exact ⟨[], first :: last, rfl, rfl⟩
        | cons piece pieces => exact ⟨(first :: piece) :: pieces, last, rfl, rfl⟩

/-- Blanks at the end of a text stand behind its last character that is not blank. -/
theorem exists_of_append_blanks_eq (h : AreBlanks blanks) {start : List Char} {c : Char}
    (hc : isBlank c = false) (heq : text ++ blanks = start ++ c :: more) :
    ∃ rest, text = start ++ c :: rest ∧ more = rest ++ blanks := by
  rcases List.append_eq_append_iff.mp heq with ⟨between, -, hblanks⟩ | ⟨between, htext, hmore⟩
  · exact absurd (hblanks ▸ List.mem_append_right between List.mem_cons_self) (h.not_mem hc)
  · cases between with
    | nil =>
        rw [List.nil_append] at hmore
        exact absurd (hmore ▸ List.mem_cons_self) (h.not_mem hc)
    | cons first rest =>
        rw [List.cons_append, List.cons.injEq] at hmore
        obtain ⟨rfl, hmore⟩ := hmore
        exact ⟨rest, htext, hmore⟩

end Text

/-! ## Lines that are read alike -/

namespace Payload

variable {blanks : List Char}

theorem splitField_append_blanks (h : Text.AreBlanks blanks) (field : List Char) :
    splitField (field ++ blanks) = splitField field := by
  have hequals : ∀ c ∈ blanks, decide (c ≠ '=') = true := by
    intro c hc
    rw [decide_eq_true_eq]
    rintro rfl
    exact h.not_mem (by decide) hc
  have hends : blanks.takeWhile (fun c => decide (c ≠ '=')) = blanks :=
    List.takeWhile_eq_self_iff.mpr hequals
  have hnone : blanks.dropWhile (fun c => decide (c ≠ '=')) = [] :=
    List.dropWhile_eq_nil_iff.mpr hequals
  unfold splitField
  rw [List.takeWhile_append, List.dropWhile_append, hends, hnone]
  by_cases hkey : field.dropWhile (fun c => decide (c ≠ '=')) = []
  · -- There is no equals sign, so the blanks stand behind the key.
    have hlength : (field.takeWhile fun c => decide (c ≠ '=')) = field :=
      List.takeWhile_eq_self_iff.mpr (List.dropWhile_eq_nil_iff.mp hkey)
    rw [if_pos (by rw [hlength]), hkey, hlength, h.trim_append]
    rfl
  · -- They stand behind the text.
    have hlength : (field.takeWhile fun c => decide (c ≠ '=')).length ≠ field.length := by
      intro hlength
      have hall := (List.takeWhile_prefix _).eq_of_length hlength
      exact hkey (List.dropWhile_eq_nil_iff.mpr (List.takeWhile_eq_self_iff.mp hall))
    obtain ⟨first, rest, hrest⟩ := List.exists_cons_of_ne_nil hkey
    rw [if_neg hlength, hrest, List.isEmpty_cons, if_neg Bool.false_ne_true, List.cons_append,
      List.drop_succ_cons, List.drop_succ_cons, List.drop_zero, List.drop_zero, h.trim_append]

/-- Blanks behind a payload change no field. -/
theorem fields_append_blanks (h : Text.AreBlanks blanks) (payload : String) :
    fields (payload ++ String.ofList blanks) = fields payload := by
  obtain ⟨pieces, last, hpieces, hmore⟩ :=
    Text.splitOn_append_of_not_mem (h.not_mem (c := ',') (by decide)) payload.toList
  unfold fields
  rw [String.toList_append, String.toList_ofList, hpieces, hmore, List.map_append, List.map_append,
    List.map_singleton, List.map_singleton, splitField_append_blanks h]

end Payload

/-- Lines that are read alike: two record lines that differ in how the fields are written, or two lines
of commentary that differ in the blanks around them. -/
inductive ReadAlike : String → String → Prop where
  | record {line line' : String} {header : Header} {payload : String}
      (hread : Header.read? line = some header)
      (hread' : Header.read? line' = some { header with payload })
      (hfields : Payload.fields payload = Payload.fields header.payload) : ReadAlike line line'
  | commentary {line line' : String} (hline : isRecordLine line = false)
      (hline' : isRecordLine line' = false)
      (htrim : Text.trim line'.toList = Text.trim line.toList) : ReadAlike line line'

namespace Header

variable {header : Header} {rankText line : String} {blanks : List Char}

/-- A record line with blanks behind it has them behind its payload. -/
theorem Written.append_blanks (h : header.Written rankText line) (hblanks : Text.AreBlanks blanks) :
    Written { header with payload := header.payload ++ String.ofList blanks } rankText
      (line ++ String.ofList blanks) where
  line_eq := by rw [h.line_eq, String.append_assoc]
  level_ne := h.level_ne
  level := h.level
  rank := h.rank
  rank_fits := h.rank_fits
  scope := h.scope
  label := h.label
  payload := by
    rw [String.toList_append, String.toList_ofList, List.mem_append, not_or]
    exact ⟨h.payload, fun hmem => (hblanks _ hmem).2 rfl⟩

/-- Blanks do not make a record line: the bracket before the payload is none. -/
theorem Written.exists_of_append_blanks (h : header.Written rankText (line ++ String.ofList blanks))
    (hblanks : Text.AreBlanks blanks) :
    ∃ payload, Written { header with payload } rankText line := by
  obtain ⟨start, hstart⟩ : ∃ start, start = "[" ++ header.level ++ "][rank " ++ rankText ++ "][" ++
      header.scope ++ "][" ++ header.label := ⟨_, rfl⟩
  have hline : line ++ String.ofList blanks = start ++ "]" ++ header.payload := by
    rw [hstart]
    exact h.line_eq
  have hlist : line.toList ++ blanks = start.toList ++ ']' :: header.payload.toList := by
    simpa using congrArg String.toList hline
  obtain ⟨rest, hrest, hpayload⟩ :=
    Text.exists_of_append_blanks_eq hblanks (by decide : Text.isBlank ']' = false) hlist
  refine ⟨String.ofList rest, ?_, h.level_ne, h.level, h.rank, h.rank_fits, h.scope, h.label, ?_⟩
  · show line = _ ++ "]" ++ String.ofList rest
    rw [← hstart, ← String.toList_inj]
    simpa using hrest
  · rw [String.toList_ofList]
    intro hmem
    exact h.payload (hpayload ▸ List.mem_append_left blanks hmem)

end Header

namespace ReadAlike

variable {line line' : String} {lines lines' : List String} {blanks : List Char}

theorem refl (line : String) : ReadAlike line line := by
  cases hread : Header.read? line with
  | some header => exact .record hread hread rfl
  | none =>
      have hline := isRecordLine_eq_false_iff.mpr hread
      exact .commentary hline hline rfl

/-- A line is read alike with blanks behind it. -/
theorem append_blanks (h : Text.AreBlanks blanks) (line : String) :
    ReadAlike line (line ++ String.ofList blanks) := by
  cases hread : Header.read? line with
  | some header =>
      obtain ⟨rankText, hwritten⟩ := Header.exists_written hread
      exact .record hread (hwritten.append_blanks h).read?_eq (Payload.fields_append_blanks h _)
  | none =>
      refine .commentary (isRecordLine_eq_false_iff.mpr hread) ?_ ?_
      · rw [isRecordLine_eq_false_iff]
        cases hread' : Header.read? (line ++ String.ofList blanks) with
        | none => rfl
        | some header =>
            obtain ⟨rankText, hwritten⟩ := Header.exists_written hread'
            obtain ⟨payload, hline⟩ := hwritten.exists_of_append_blanks h
            rw [hline.read?_eq] at hread
            cases hread
      · rw [String.toList_append, String.toList_ofList, h.trim_append]

theorem isRecordLine_eq (h : ReadAlike line line') : isRecordLine line' = isRecordLine line := by
  cases h with
  | record hread hread' => rw [isRecordLine_of_read? hread, isRecordLine_of_read? hread']
  | commentary hline hline' => rw [hline, hline']

theorem arrayOf_eq (h : List.Forall₂ ReadAlike lines lines') :
    Payload.arrayOf lines' = Payload.arrayOf lines := by
  have hitems : (lines'.takeWhile Payload.isArrayLine).map Value.ofLiteral =
      (lines.takeWhile Payload.isArrayLine).map Value.ofLiteral := by
    induction h with
    | nil => rfl
    | @cons line line' rest rest' hline _ ih =>
        have hends : Payload.isArrayLine line' = Payload.isArrayLine line := by
          unfold Payload.isArrayLine
          rw [hline.isRecordLine_eq]
          cases hline with
          | record hread => simp [isRecordLine_of_read? hread]
          | commentary _ _ htrim => rw [htrim]
        rw [List.takeWhile_cons, List.takeWhile_cons, hends]
        split
        · next harray =>
            have hvalue : Value.ofLiteral line' = Value.ofLiteral line := by
              cases hline with
              | record hread => simp [Payload.isArrayLine, isRecordLine_of_read? hread] at harray
              | commentary _ _ htrim =>
                  rw [← Value.ofLiteral_trim line', htrim, Value.ofLiteral_trim]
            rw [List.map_cons, List.map_cons, hvalue, ih]
        · rfl
  unfold Payload.arrayOf
  rw [hitems]

/-- Lines that are read alike are the same record, with lines behind them that are read alike. -/
theorem read?_eq (h : ReadAlike line line') (hfollowing : List.Forall₂ ReadAlike lines lines')
    (indicator : String) :
    Record.read? indicator line' lines' = Record.read? indicator line lines := by
  cases h with
  | record hread hread' hfields =>
      simp only [Record.read?, hread, hread', Option.map_some, Payload.decode, hfields,
        Payload.valueOf, arrayOf_eq hfollowing]
  | commentary hline hline' =>
      rw [isRecordLine_eq_false_iff] at hline hline'
      simp only [Record.read?, hline, hline', Option.map_none]

end ReadAlike

/-! ## Logs whose lines are read alike -/

theorem Builder.Move.ofLines_readAlike {lines lines' : List String}
    (h : List.Forall₂ ReadAlike lines lines') (indicator : String) :
    Move.ofLines indicator [] lines' = Move.ofLines indicator [] lines := by
  induction h with
  | nil => rfl
  | cons hline hrest ih =>
      simp only [Move.ofLines, Move.ofLine, List.append_nil, hline.read?_eq hrest, ih]

namespace Document

open Builder

variable {options : Options} {lines lines' : List String}

/-- Logs whose lines are read alike have the same document, or the same error. -/
theorem ofLines_congr (h : List.Forall₂ ReadAlike lines lines') :
    ofLines options lines' = ofLines options lines := by
  unfold ofLines
  rw [runLines_eq_runMoves, runLines_eq_runMoves, Move.ofLines_readAlike h]

/-- An empty line at the end of a log makes no difference. -/
theorem ofLines_append_empty (lines : List String) :
    ofLines options (lines ++ [""]) = ofLines options lines := by
  have hafresh : StartsAfresh [""] := by
    rintro line ⟨⟩
    exact .inl rfl
  unfold ofLines
  rw [runLines_append, Move.ofLines_of_noArrayAcross (.inl hafresh), ← runLines_eq_runMoves]
  cases runLines options.arrayIndicator 1 lines .initial with
  | refused error last => rfl
  | reached s => rfl

/-! ## Texts of lines -/

end Document

namespace Text

/-- The pieces of a text between its line feeds. -/
def pieces (text : List Char) : List String :=
  (text.splitOn '\n').map String.ofList

/-- A line break. -/
inductive LineBreak where
  | lineFeed
  | carriageReturnLineFeed
deriving DecidableEq, Repr

/-- The characters of a line break. -/
def LineBreak.text : LineBreak → List Char
  | lineFeed => ['\n']
  | carriageReturnLineFeed => ['\r', '\n']

/-- A text that is joined from lines: blanks may stand behind each of them, and line breaks stand
between them. -/
inductive Joined : List String → List Char → Prop where
  | none : Joined [] []
  | last (line : String) {blanks : List Char} (hblanks : AreBlanks blanks) :
      Joined [line] (line.toList ++ blanks)
  | cons (line : String) {blanks : List Char} (hblanks : AreBlanks blanks) (lineBreak : LineBreak)
      {next : String} {rest : List String} {text : List Char} (hrest : Joined (next :: rest) text) :
      Joined (line :: next :: rest) (line.toList ++ blanks ++ lineBreak.text ++ text)

/-- A line break is a line feed with blanks before it. -/
theorem LineBreak.exists_text_eq (lineBreak : LineBreak) :
    ∃ blanks, AreBlanks blanks ∧ lineBreak.text = blanks ++ ['\n'] := by
  cases lineBreak with
  | lineFeed => exact ⟨[], by decide, rfl⟩
  | carriageReturnLineFeed => exact ⟨['\r'], by decide, rfl⟩

/-- What is left of the pieces of a text when they are closed: without a carriage return, all but the
last, and the last one if it is not empty. -/
theorem closeLines_append (pieces : List (List Char)) (last : List Char) :
    closeLines (pieces ++ [last]) =
      pieces.map withoutCarriageReturn ++ if last = [] then [] else [last] := by
  induction pieces with
  | nil => rfl
  | cons piece rest ih =>
      have hcons : ∃ next more, rest ++ [last] = next :: more := by
        cases rest with
        | nil => exact ⟨last, [], rfl⟩
        | cons next more => exact ⟨next, more ++ [last], rfl⟩
      obtain ⟨next, more, hnext⟩ := hcons
      rw [List.cons_append, hnext, closeLines, ← hnext, ih, List.map_cons, List.cons_append]

end Text

/-- A line with or without a carriage return is read alike. -/
theorem ReadAlike.withoutCarriageReturn (line : List Char) :
    ReadAlike (String.ofList (Text.withoutCarriageReturn line)) (String.ofList line) := by
  unfold Text.withoutCarriageReturn
  split
  · next hlast =>
      have hblanks : Text.AreBlanks ['\r'] := by decide
      have hline : line = line.dropLast ++ ['\r'] :=
        (List.dropLast_append_getLast? _ hlast).symm
      conv => arg 2; rw [hline, String.ofList_append]
      exact .append_blanks hblanks _
  · exact .refl _

namespace Document

variable {options : Options}

/-- To read a text is to read the pieces between its line feeds: carriage returns before them, and an
empty piece at the end, make no difference. -/
theorem ofText_eq_pieces (options : Options) (text : List Char) :
    ofText options (String.ofList text) = ofLines options (Text.pieces text) := by
  obtain ⟨front, last, hpieces⟩ : ∃ front last, text.splitOn '\n' = front ++ [last] :=
    (List.eq_nil_or_concat' _).resolve_left (List.splitOn_ne_nil '\n' text)
  have hclosed : List.Forall₂ ReadAlike
      ((front.map Text.withoutCarriageReturn).map String.ofList) (front.map String.ofList) := by
    rw [List.map_map, List.forall₂_map_left_iff, List.forall₂_map_right_iff, List.forall₂_same]
    exact fun line _ => .withoutCarriageReturn line
  unfold ofText Text.pieces Text.lines
  rw [String.toList_ofList, hpieces, Text.closeLines_append, List.map_append, List.map_append]
  split
  · next hempty =>
      rw [hempty, List.map_nil, List.append_nil, ← ofLines_congr hclosed]
      exact (ofLines_append_empty _).symm
  · exact (ofLines_congr (List.rel_append hclosed (.cons (.refl _) .nil))).symm

/-- Blanks at the end of a text make no difference. -/
theorem ofLines_pieces_append_blanks {blanks : List Char} (h : Text.AreBlanks blanks)
    (text : List Char) :
    ofLines options (Text.pieces (text ++ blanks)) = ofLines options (Text.pieces text) := by
  have hfeed : '\n' ∉ blanks := fun hmem => (h _ hmem).2 rfl
  obtain ⟨front, last, hpieces, hmore⟩ := Text.splitOn_append_of_not_mem hfeed text
  unfold Text.pieces
  rw [hpieces, hmore, List.map_append, List.map_append]
  refine ofLines_congr (List.rel_append (List.forall₂_same.mpr fun line _ => .refl line) ?_)
  rw [List.map_singleton, List.map_singleton, String.ofList_append]
  exact .cons (.append_blanks h _) .nil

/-- A line break at the end of a text makes no difference. -/
theorem ofLines_pieces_append_break (text : List Char) (final : Option Text.LineBreak) :
    ofLines options (Text.pieces (text ++ final.elim [] Text.LineBreak.text)) =
      ofLines options (Text.pieces text) := by
  cases final with
  | none => rw [Option.elim_none, List.append_nil]
  | some lineBreak =>
      obtain ⟨blanks, hblanks, hbreak⟩ := lineBreak.exists_text_eq
      have hlines : Text.pieces (text ++ blanks ++ ['\n']) = Text.pieces (text ++ blanks) ++ [""] := by
        unfold Text.pieces
        rw [List.splitOn_append_cons_self, List.map_append]
        rfl
      rw [Option.elim_some, hbreak, ← List.append_assoc, hlines,
        ofLines_append_empty, ofLines_pieces_append_blanks hblanks]

/-- The pieces of a text that is joined from lines are read like those lines. -/
theorem readAlike_pieces {lines : List String} {text : List Char} (hjoined : Text.Joined lines text)
    (hne : lines ≠ []) (hfeeds : ∀ line ∈ lines, '\n' ∉ line.toList) :
    List.Forall₂ ReadAlike lines (Text.pieces text) := by
  have hblanksFeed {blanks : List Char} (h : Text.AreBlanks blanks) : '\n' ∉ blanks :=
    fun hmem => (h _ hmem).2 rfl
  have hline {line : String} {blanks : List Char} (h : Text.AreBlanks blanks) :
      ReadAlike line (String.ofList (line.toList ++ blanks)) := by
    rw [String.ofList_append, String.ofList_toList]
    exact .append_blanks h line
  induction hjoined with
  | none => exact absurd rfl hne
  | @last line blanks hblanks =>
      have hfeed : '\n' ∉ line.toList ++ blanks := by
        rw [List.mem_append, not_or]
        exact ⟨hfeeds line List.mem_cons_self, hblanksFeed hblanks⟩
      unfold Text.pieces
      rw [List.splitOn_eq_singleton hfeed]
      exact .cons (hline hblanks) .nil
  | @cons line blanks hblanks lineBreak next rest text hrest ih =>
      obtain ⟨more, hmore, hbreak⟩ := lineBreak.exists_text_eq
      have hbehind := hblanks.append hmore
      have hfeed : '\n' ∉ line.toList ++ (blanks ++ more) := by
        rw [List.mem_append, not_or]
        exact ⟨hfeeds line List.mem_cons_self, hblanksFeed hbehind⟩
      have htext : line.toList ++ blanks ++ lineBreak.text ++ text =
          line.toList ++ (blanks ++ more) ++ '\n' :: text := by
        rw [hbreak]
        simp only [List.append_assoc, List.singleton_append]
      rw [htext, Text.pieces, List.splitOn_append_cons_self_of_not_mem hfeed, List.map_cons]
      refine .cons (hline hbehind) (ih (List.cons_ne_nil next rest) ?_)
      exact fun other hother => hfeeds other (List.mem_cons_of_mem line hother)

/-- How the lines of a log are ended makes no difference. A text that is joined from lines, with any
blanks behind each of them, any line breaks between them and one or none at the end, is read as the lines
are; and so are the lines with other commentary in the place of commentary, if only the blanks around it
are other ones. -/
theorem ofText_joined (options : Options) :
    (∀ (lines : List String) (text : List Char) (final : Option Text.LineBreak),
        (∀ line ∈ lines, '\n' ∉ line.toList) → Text.Joined lines text →
          ofText options (String.ofList (text ++ final.elim [] Text.LineBreak.text)) =
            ofLines options lines) ∧
      ∀ (before after : List String) (line other : String), isRecordLine line = false →
        isRecordLine other = false → Text.trim other.toList = Text.trim line.toList →
          ofLines options (before ++ other :: after) = ofLines options (before ++ line :: after) := by
  constructor
  · intro lines text final hfeeds hjoined
    rw [ofText_eq_pieces, ofLines_pieces_append_break]
    by_cases hne : lines = []
    · subst hne
      cases hjoined
      exact ofLines_append_empty []
    · exact ofLines_congr (readAlike_pieces hjoined hne hfeeds)
  · intro before after line other hline hother htrim
    have hrefl (lines : List String) : List.Forall₂ ReadAlike lines lines :=
      List.forall₂_same.mpr fun line _ => .refl line
    exact ofLines_congr
      (List.rel_append (hrefl before) (.cons (.commentary hline hother htrim) (hrefl after)))

/-- A log with an array. -/
def endedLog : List String :=
  ["[INFO][rank 0][ARK][begin-nls] y(:) =",
    "  1",
    "[INFO][rank 0][ARK][end-nls] k = 2"]

/-- A text of that log: its lines have blanks behind them, and are broken in three ways. -/
def endedText : String :=
  "[INFO][rank 0][ARK][begin-nls] y(:) = \t\r\n  1\u00a0\n[INFO][rank 0][ARK][end-nls] k = 2\r\r\n"

/-- The document of that log. -/
def endedDocument : Document where
  globals :=
    [("nls", .dict [("y(:)", .value (.array [.integer 1])), ("k", .value (.integer 2))])]
  steps := []

theorem ofText_joined_ended :
    ofText {} endedText = .ok endedDocument ∧
      ofLines {} ("[INFO][rank 0][ARK][begin-nls] y(:) =" :: "1\n" ::
        ["[INFO][rank 0][ARK][end-nls] k = 2"]) = .ok endedDocument := by
  have hread : ofLines {} endedLog = .ok endedDocument := by decide +kernel
  have hfeeds : ∀ line ∈ endedLog, '\n' ∉ line.toList := by decide +kernel
  have hjoined := Text.Joined.cons "[INFO][rank 0][ARK][begin-nls] y(:) ="
    (by decide : Text.AreBlanks [' ', '\t']) .carriageReturnLineFeed
      (.cons "  1" (by decide : Text.AreBlanks ['\u00a0']) .lineFeed
        (.last "[INFO][rank 0][ARK][end-nls] k = 2" (by decide : Text.AreBlanks ['\r'])))
  have htext := (ofText_joined {}).1 endedLog _ (some .carriageReturnLineFeed) hfeeds hjoined
  have hother := (ofText_joined {}).2 ["[INFO][rank 0][ARK][begin-nls] y(:) ="]
    ["[INFO][rank 0][ARK][end-nls] k = 2"] "  1" "1\n" (by decide +kernel) (by decide +kernel)
    (by decide)
  rw [hread] at htext
  exact ⟨htext, hother.trans hread⟩

end Document

end SolverLog
