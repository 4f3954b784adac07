import SolverLog.Proofs.Answers
import SolverLog.Proofs.JsonGrammar
import SolverLog.Proofs.Unambiguous

/-!
# The four ways to write a document

The command that writes a document writes it compact or indented, and with the fields outside of the
steps or without them. All four fail for the same files and with the same error; otherwise each writes
a JSON text and a line feed, and the texts say the same (`CommandLine.Command.answer_parse_modes`).

The indented text is the compact one with spaces and line feeds outside of strings, which `Json.squeeze`
takes away. It reads the text from left to right and keeps track of whether it is in a string; every
piece of a rendered value leaves it where it was, outside (`Json.squeezes_pieces`).
-/

namespace SolverLog

namespace Json

/-! ## Taking the space away -/

/-- Where a character of a text stands. -/
inductive Side where
  | outside
  | inside
  /-- Behind a backslash in a string. -/
  | escaped
deriving DecidableEq

/-- Where the character after that one stands. -/
def Side.after : Side → Char → Side
  | outside, c => if c = '"' then inside else outside
  | inside, c => if c = '"' then outside else if c = '\\' then escaped else inside
  | escaped, _ => inside

/-- A text without the spaces and line feeds that are outside of strings. -/
def squeeze : Side → List Char → List Char
  | _, [] => []
  | side, c :: rest =>
    if side = .outside ∧ (c = ' ' ∨ c = '\n') then squeeze side rest
    else c :: squeeze (side.after c) rest

/-- Whether a character is kept outside of strings, and opens none. -/
def isPlain (c : Char) : Bool :=
  c ≠ ' ' && c ≠ '\n' && c ≠ '"'

/-- From outside of strings and back there, what is kept of the text. -/
def Squeezes (text kept : List Char) : Prop :=
  ∀ rest, squeeze .outside (text ++ rest) = kept ++ squeeze .outside rest

namespace Squeezes

variable {text kept : List Char}

theorem nil : Squeezes [] [] := by
  intro rest
  rfl

theorem append (h : Squeezes text kept) {more others : List Char} (hmore : Squeezes more others) :
    Squeezes (text ++ more) (kept ++ others) := by
  intro rest
  rw [List.append_assoc, h, hmore, List.append_assoc]

theorem squeeze_eq (h : Squeezes text kept) : squeeze .outside text = kept := by
  have hrest := h []
  rwa [List.append_nil, squeeze, List.append_nil] at hrest

/-- Spaces and line feeds are taken away. -/
theorem of_blank (h : ∀ c ∈ text, c = ' ' ∨ c = '\n') : Squeezes text [] := by
  intro rest
  induction text with
  | nil => rfl
  | cons c others ih =>
      rw [List.forall_mem_cons] at h
      rw [List.cons_append, squeeze, if_pos ⟨rfl, h.1⟩]
      exact ih h.2

/-- A text without spaces, line feeds and quotes is kept. -/
theorem of_plain (h : text.all isPlain) : Squeezes text text := by
  intro rest
  induction text with
  | nil => rfl
  | cons c others ih =>
      rw [List.all_cons, Bool.and_eq_true_iff] at h
      obtain ⟨hplain, hothers⟩ := h
      simp only [isPlain, Bool.and_eq_true, decide_eq_true_eq, ne_eq] at hplain
      obtain ⟨⟨hspace, hfeed⟩, hquote⟩ := hplain
      rw [List.cons_append, squeeze, if_neg (by simp [hspace, hfeed]), Side.after, if_neg hquote,
        ih hothers, List.cons_append]

theorem of_isNumeric (h : ∀ c ∈ text, Number.isNumeric c) : Squeezes text text := by
  apply of_plain
  rw [List.all_eq_true]
  intro c hc
  have hnumeric := h c hc
  simp only [isPlain, Bool.and_eq_true, decide_eq_true_eq, ne_eq]
  refine ⟨⟨?_, ?_⟩, ?_⟩ <;> rintro rfl <;> exact absurd hnumeric (by decide)

end Squeezes

/-- In a string, characters other than quotes and backslashes are kept. -/
theorem squeeze_inside {text : List Char} (h : ∀ c ∈ text, c ≠ '"' ∧ c ≠ '\\') (rest : List Char) :
    squeeze .inside (text ++ rest) = text ++ squeeze .inside rest := by
  induction text with
  | nil => rfl
  | cons c others ih =>
      rw [List.forall_mem_cons] at h
      obtain ⟨⟨hquote, hbackslash⟩, hothers⟩ := h
      rw [List.cons_append, squeeze, if_neg (fun h => nomatch h.1), Side.after, if_neg hquote,
        if_neg hbackslash, ih hothers, List.cons_append]

/-- In a string, a backslash and the character behind it are kept. -/
theorem squeeze_backslash (c : Char) (rest : List Char) :
    squeeze .inside ('\\' :: c :: rest) = '\\' :: c :: squeeze .inside rest := by
  simp [squeeze, Side.after]

theorem IsCode.squeeze {digits : List Char} {code : Nat} (h : IsCode digits code) (rest : List Char) :
    Json.squeeze .inside (digits ++ rest) = digits ++ Json.squeeze .inside rest := by
  apply squeeze_inside
  intro digit hdigit
  have hhex := h.isHex digit hdigit
  constructor <;> rintro rfl <;> exact absurd hhex (by decide)

/-- In a string, what spells a character is kept, and the string goes on. -/
theorem SpellsChar.squeeze {text : List Char} {c : Char} (h : SpellsChar text c) (rest : List Char) :
    Json.squeeze .inside (text ++ rest) = text ++ Json.squeeze .inside rest := by
  cases h with
  | plain hcontrol hquote hbackslash => exact squeeze_inside (by simp [hquote, hbackslash]) rest
  | short h => exact squeeze_backslash _ rest
  | code hcode =>
      rw [List.cons_append, List.cons_append, squeeze_backslash, hcode.squeeze, List.cons_append,
        List.cons_append]
  | pair hhigh hlow hlower hvalue =>
      simp only [List.cons_append, List.append_assoc, squeeze_backslash, hhigh.squeeze, hlow.squeeze]

theorem SpellsChars.squeeze {text words : List Char} (h : SpellsChars text words) (rest : List Char) :
    Json.squeeze .inside (text ++ rest) = text ++ Json.squeeze .inside rest := by
  induction h with
  | nil => rfl
  | cons h _ ih => rw [List.append_assoc, h.squeeze, ih, List.append_assoc]

/-- A string is kept. -/
theorem squeezes_quote (words : String) : Squeezes (quote words).toList (quote words).toList := by
  have hinside := (spellsChars_flatMap words.toList).squeeze
  intro rest
  rw [toList_quote]
  simp [squeeze, Side.after, hinside]

/-! ## Rendered values without space -/

theorem Spacing.IsBlank.squeezes_colon {spacing : Spacing} (h : spacing.IsBlank) :
    Squeezes spacing.colon.toList [':'] := by
  obtain ⟨gap, hcolon, hgap⟩ := h.colon
  rw [hcolon]
  have hmark : Squeezes [':'] [':'] := .of_plain (by decide)
  exact hmark.append (.of_blank hgap)

mutual

/-- The pieces of a value without their space are those of its compact text. -/
theorem squeezes_pieces {spacing : Spacing} (h : spacing.IsBlank) (depth : Nat) : (json : Json) →
    Squeezes ((json.pieces spacing depth).flatMap String.toList) json.chars
  | null => by
    have hnull : Squeezes "null".toList "null".toList := .of_plain (by decide)
    simpa [pieces, chars] using hnull
  | integer value => by
    simpa [pieces, chars] using Squeezes.of_isNumeric Number.isNumeric_of_mem_integerText
  | number negative magnitude => by
    simpa [pieces, chars] using
      Squeezes.of_isNumeric (numberStyle.isNumeric_of_mem_finiteText negative magnitude)
  | text words => by
    simpa [pieces, chars] using squeezes_quote words
  | list [] => by
    have hbrackets : Squeezes ['[', ']'] ['[', ']'] := .of_plain (by decide)
    simpa [pieces, chars] using hbrackets
  | list (item :: rest) => by
    have hbreak (depth : Nat) := Squeezes.of_blank (h.lineBreak depth)
    have hitem := squeezes_pieces h (depth + 1) item
    have hrest := squeezes_itemPieces h (depth + 1) rest
    have hopen : Squeezes ['['] ['['] := .of_plain (by decide)
    have hclose : Squeezes [']'] [']'] := .of_plain (by decide)
    simpa [pieces, chars] using
      hopen.append ((hbreak (depth + 1)).append (hitem.append (hrest.append
        ((hbreak depth).append hclose))))
  | object [] => by
    have hbrackets : Squeezes ['\x7b', '\x7d'] ['\x7b', '\x7d'] := .of_plain (by decide)
    simpa [pieces, chars] using hbrackets
  | object ((key, value) :: rest) => by
    have hbreak (depth : Nat) := Squeezes.of_blank (h.lineBreak depth)
    have hvalue := squeezes_pieces h (depth + 1) value
    have hrest := squeezes_memberPieces h (depth + 1) rest
    have hopen : Squeezes ['\x7b'] ['\x7b'] := .of_plain (by decide)
    have hclose : Squeezes ['\x7d'] ['\x7d'] := .of_plain (by decide)
    simpa [pieces, chars] using
      hopen.append ((hbreak (depth + 1)).append ((squeezes_quote key).append
        (h.squeezes_colon.append (hvalue.append (hrest.append ((hbreak depth).append hclose))))))

theorem squeezes_itemPieces {spacing : Spacing} (h : spacing.IsBlank) (depth : Nat) :
    (items : List Json) →
      Squeezes ((itemPieces spacing depth items).flatMap String.toList) (itemChars items)
  | [] => Squeezes.nil
  | item :: rest => by
    have hbreak := Squeezes.of_blank (h.lineBreak depth)
    have hitem := squeezes_pieces h depth item
    have hrest := squeezes_itemPieces h depth rest
    have hcomma : Squeezes [','] [','] := .of_plain (by decide)
    simpa [itemPieces, itemChars] using hcomma.append (hbreak.append (hitem.append hrest))

theorem squeezes_memberPieces {spacing : Spacing} (h : spacing.IsBlank) (depth : Nat) :
    (members : List (String × Json)) →
      Squeezes ((memberPieces spacing depth members).flatMap String.toList) (memberChars members)
  | [] => Squeezes.nil
  | (key, value) :: rest => by
    have hbreak := Squeezes.of_blank (h.lineBreak depth)
    have hvalue := squeezes_pieces h depth value
    have hrest := squeezes_memberPieces h depth rest
    have hcomma : Squeezes [','] [','] := .of_plain (by decide)
    simpa [memberPieces, memberChars] using
      hcomma.append (hbreak.append ((squeezes_quote key).append
        (h.squeezes_colon.append (hvalue.append hrest))))

end

/-- A rendered value without its space is the compact text of the value. -/
theorem squeeze_render {spacing : Spacing} (h : spacing.IsBlank) (json : Json) :
    squeeze .outside (json.render spacing).toList = json.compact.toList := by
  rw [render, String.toList_join, toList_compact]
  exact (squeezes_pieces h 0 json).squeeze_eq

example :
    String.ofList (squeeze .outside "[ \"a \\\" b\",\n  1 ]".toList) = "[\"a \\\" b\",1]" := by
  decide

end Json

/-! ## The four modes -/

/-- The compact text of a document, from those of its fields outside of the steps and of its steps. -/
theorem Document.compact_toJson (document : Document) :
    document.toJson.compact =
      "\x7b\"globals\":" ++ (Node.dict document.globals).toJson.compact ++ ",\"steps\":" ++
        document.stepsToJson.compact ++ "\x7d" := by
  apply String.toList_injective
  simp only [String.toList_append, Json.toList_compact]
  simp [toJson, Dict.toJson, Node.toJson, Json.chars, Json.memberChars, Json.toList_quote, Json.escape]

/-- The four texts of a document, by whether each is compact and whether it has the fields outside of
the steps. -/
structure Document.IsWrittenAs (document : Document) (text : Bool → Bool → String) : Prop where
  /-- A text with the fields outside of the steps is that of a JSON value from which the document is
  read. -/
  spells_document : ∀ compact, ∃ json, Json.Spells (text compact true).toList json ∧
    ofJson? json = some document
  /-- A text without them is that of a JSON list from which the steps are read. -/
  spells_steps : ∀ compact, ∃ items, Json.Spells (text compact false).toList (.list items) ∧
    Node.itemsOfJson? items = some document.steps
  squeeze : ∀ globals,
    Json.squeeze .outside (text false globals).toList = (text true globals).toList
  /-- The fields outside of the steps are written like any dictionary, and are read from that. -/
  globals_read : Node.ofJson? (Node.dict document.globals).toJson = some (.dict document.globals)
  globals : text true true =
    "\x7b\"globals\":" ++ (Node.dict document.globals).toJson.compact ++ ",\"steps\":" ++
      text true false ++ "\x7d"

namespace CommandLine.Command

/-- The text for a document, by how the command is to write it. -/
def textOf (document : Document) (compact globals : Bool) : String :=
  (if globals then document.toJson else document.stepsToJson).render
    (if compact then .compact else .indented)

theorem spells_textOf (document : Document) (compact globals : Bool) :
    Json.Spells (textOf document compact globals).toList
      (if globals then document.toJson else document.stepsToJson) := by
  apply Json.spells_render
  cases compact with
  | false => exact Json.Spacing.isBlank_indented
  | true => exact Json.Spacing.isBlank_compact

/-- The texts of a document that is read from a log. -/
theorem isWrittenAs_textOf {document : Document} (h : document.Decoded) :
    document.IsWrittenAs (textOf document) where
  spells_document := fun compact =>
    ⟨document.toJson, spells_textOf document compact true, Document.ofJson?_toJson h⟩
  spells_steps := fun compact =>
    ⟨_, spells_textOf document compact false, Document.itemsOfJson?_steps h⟩
  squeeze := fun _ => Json.squeeze_render Json.Spacing.isBlank_indented _
  globals_read := Node.ofJson?_toJson (.dict h.globals)
  globals := document.compact_toJson

theorem output_parse (path : String) (options : Options) (compact globals : Bool)
    (document : Document) :
    (parse path options compact globals).output document = textOf document compact globals ++ "\n" := by
  cases compact <;> rfl

/-- The four ways to write a document agree. If the file has no document, all fail with one error and
no output. Otherwise all succeed, and each output is a JSON text and a line feed: the indented text is
the compact one with spaces and line feeds outside of strings, and the compact text with the fields
outside of the steps is put together from the one of these and the one without them. -/
theorem answer_parse_modes (path : String) (options : Options) (content : FileContent) :
    (content.NoDocument options ∧ ∃ errors, ∀ compact globals,
        ((parse path options compact globals).answer content).exit = 1 ∧
          ((parse path options compact globals).answer content).output = "" ∧
            ((parse path options compact globals).answer content).errors = errors) ∨
      (¬content.NoDocument options ∧ ∃ document text,
        Document.ofFile options content = .ok document ∧ document.IsWrittenAs text ∧
          ∀ compact globals,
            ((parse path options compact globals).answer content).exit = 0 ∧
              ((parse path options compact globals).answer content).output =
                text compact globals ++ "\n") := by
  cases hfile : Document.ofFile options content with
  | error error =>
      left
      obtain ⟨message, hanswer⟩ := Answer.exists_ofLoadError_eq path error
      refine ⟨Document.ofFile_eq_error_iff.mp ⟨error, hfile⟩, message, ?_⟩
      intro compact globals
      have hfailure : (parse path options compact globals).answer content = .ofLoadError path error :=
        answer_of_error hfile
      rw [hfailure, hanswer]
      exact ⟨rfl, rfl, rfl⟩
  | ok document =>
      right
      obtain ⟨log, -, hread⟩ := Document.ofFile_eq_ok_iff.mp hfile
      refine ⟨?_, document, textOf document, rfl,
        isWrittenAs_textOf (Document.decoded_of_ofLines hread), ?_⟩
      · intro hnone
        obtain ⟨error, herror⟩ := Document.ofFile_eq_error_iff.mpr hnone
        cases hfile.symm.trans herror
      · intro compact globals
        have hsuccess : (parse path options compact globals).answer content =
            .success ((parse path options compact globals).output document)
              (content.warnings options) := answer_of_ok hfile
        rw [hsuccess, output_parse]
        exact ⟨rfl, rfl⟩

end CommandLine.Command

end SolverLog
