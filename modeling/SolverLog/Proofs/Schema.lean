import SolverLog.Proofs.Origins
import SolverLog.Proofs.RoundTrip
import SolverLog.Proofs.Skeleton

/-!
# The schema of documents

Whatever a log holds, and with whatever array indicator it is read, all dictionaries of its document
are of one form (`Dict.Conforms`): no key occurs twice, no list is empty, arrays are flat, texts read as
themselves, and the indicator tells which keys hold arrays. The one key that owes nothing to the
payloads is that of the time level, which every attempt puts first into its dictionary.

* `Payload.Conforming` — the form of a field of a record.
* `Dict.Conforms` — the form of a dictionary at a path of a document.
* `Document.conforms_of_ofLines` — every dictionary of a document is of that form.
-/

namespace SolverLog

/-- A value that is a literal, or an array of literals. -/
inductive Value.IsFlat : Value → Prop where
  | literal {value : Value} (h : value.IsLiteral) : IsFlat value
  | array {items : List Value} (h : ∀ item ∈ items, item.IsLiteral) : IsFlat (.array items)

/-- A text that is neither a number nor trimmed further: it is read as itself. -/
structure Value.IsWords (words : String) : Prop where
  ofLiteral : Value.ofLiteral words = .text words
  trimmed : Text.trim words.toList = words.toList
  integer : Number.integer? words.toList = none
  number : Number.Binary64.read? words.toList = none

theorem Value.IsLiteral.isWords {words : String} (h : (Value.text words).IsLiteral) :
    Value.IsWords words := by
  cases h with
  | text hwords =>
      have htrim : Text.trim words.toList = words.toList := (Value.eq_trim_of_ofLiteral hwords).symm
      rcases Value.ofLiteral_cases words with
        ⟨value, -, heq⟩ | ⟨value, -, -, heq⟩ | ⟨hinteger, hnumber, -⟩
      · rw [heq] at hwords
        cases hwords
      · rw [heq] at hwords
        cases hwords
      · rw [htrim] at hinteger hnumber
        exact ⟨hwords, htrim, hinteger, hnumber⟩

/-! ## Fields -/

/-- A key that a payload can have, with a value of the kind that the indicator asks for. -/
structure Payload.Conforming (indicator : String) (field : String × Value) : Prop where
  trimmed : Text.trim field.1.toList = field.1.toList
  comma : ',' ∉ field.1.toList
  equals : '=' ∉ field.1.toList
  array_iff : (∃ items, field.2 = .array items) ↔ Payload.ArrayKey indicator field.1
  flat : field.2.IsFlat

namespace Payload

variable {indicator written : String} {following : List String} {field : String × Value}

theorem isFlat_arrayOf (following : List String) : (arrayOf following).IsFlat := by
  refine .array fun item hitem => ?_
  obtain ⟨literal, -, rfl⟩ := List.mem_map.mp hitem
  exact Value.isLiteral_ofLiteral literal

theorem conforming_of_mem_decode (h : field ∈ decode indicator following written) :
    Conforming indicator field := by
  obtain ⟨key, text, hmem, rfl⟩ := mem_decode h
  obtain ⟨hkey, -, htrim, -, -⟩ := mem_fields hmem
  have hvalue : ((∃ items, valueOf indicator following key text = .array items) ↔
      ArrayKey indicator (String.ofList key)) ∧ (valueOf indicator following key text).IsFlat := by
    by_cases harray : ArrayKey indicator (String.ofList key)
    · unfold valueOf
      rw [if_pos (isArrayKey_iff.mpr harray)]
      exact ⟨iff_of_true ⟨_, rfl⟩ harray, isFlat_arrayOf following⟩
    · rw [valueOf_of_not_arrayKey harray]
      have hliteral := Value.isLiteral_ofLiteral (String.ofList text)
      refine ⟨iff_of_false ?_ harray, .literal hliteral⟩
      -- A literal is no array.
      rintro ⟨items, heq⟩
      rw [heq] at hliteral
      cases hliteral
  refine ⟨?_, ?_, ?_, hvalue.1, hvalue.2⟩ <;> simp only [String.toList_ofList]
  · exact htrim
  · exact fun hcomma => (hkey _ hcomma).2.1 rfl
  · exact fun hequals => (hkey _ hequals).2.2 rfl

end Payload

theorem Record.conforming_of_mem_readAll {indicator : String} {lines : List String} {record : Record}
    (h : record ∈ readAll indicator lines) :
    ∀ field ∈ record.payload, Payload.Conforming indicator field := by
  obtain ⟨line, following, header, -, -, hpayload⟩ := payload_of_mem_readAll h
  rw [hpayload]
  exact fun field hfield => Payload.conforming_of_mem_decode hfield

/-! ## Dictionaries -/

/-- The entry of the time level that an attempt puts first into the dictionary at a path. -/
structure Dict.IsLevelAt (attempts : List Attempt) (path : Path) (dict : Dict) (key : String)
    (held : Value) : Prop where
  attempt : ∃ attempt ∈ attempts, attempt.path = path ∧ held = .integer attempt.level
  key_eq : key = Step.levelKey
  head? : dict.head? = some (key, .value held)

/-- The form of the dictionary at a path of a document. -/
structure Dict.Conforms (indicator : String) (attempts : List Attempt) (path : Path) (dict : Dict) :
    Prop where
  nodup_keys : dict.keys.Nodup
  list_ne_nil : ∀ key items, (key, Node.list items) ∈ dict → items ≠ []
  /-- An array holds integers, numbers and texts. -/
  scalar : ∀ key items, (key, Node.value (.array items)) ∈ dict →
    ∀ item ∈ items, ∀ inner, item ≠ .array inner
  words : ∀ key words, (key, Node.value (.text words)) ∈ dict → Value.IsWords words
  array_words : ∀ key items, (key, Node.value (.array items)) ∈ dict →
    ∀ words, Value.text words ∈ items → Value.IsWords words
  /-- The key of a value is that of the time level, or one that a payload can have. -/
  key : ∀ key held, (key, Node.value held) ∈ dict → IsLevelAt attempts path dict key held ∨
    Text.trim key.toList = key.toList ∧ ',' ∉ key.toList ∧ '=' ∉ key.toList ∧
      ((∃ items, held = .array items) ↔ Payload.ArrayKey indicator key)

/-- A dictionary is of that form if its values are fields, or the time level at its start. -/
theorem Dict.Conforms.of_values {indicator : String} {attempts : List Attempt} {path : Path}
    {dict : Dict} (hkeys : dict.keys.Nodup)
    (hlists : ∀ key items, (key, Node.list items) ∈ dict → items ≠ [])
    (hvalues : ∀ key held, (key, Node.value held) ∈ dict →
      Payload.Conforming indicator (key, held) ∨ IsLevelAt attempts path dict key held) :
    dict.Conforms indicator attempts path where
  nodup_keys := hkeys
  list_ne_nil := hlists
  scalar := by
    intro key items hentry item hitem inner heq
    rcases hvalues key _ hentry with hfield | hlevel
    · cases hfield.flat with
      | literal h => cases h
      | array h =>
          have hliteral := h item hitem
          rw [heq] at hliteral
          cases hliteral
    · obtain ⟨attempt, -, -, hheld⟩ := hlevel.attempt
      cases hheld
  words := by
    intro key words hentry
    rcases hvalues key _ hentry with hfield | hlevel
    · cases hfield.flat with
      | literal h => exact h.isWords
    · obtain ⟨attempt, -, -, hheld⟩ := hlevel.attempt
      cases hheld
  array_words := by
    intro key items hentry words hwords
    rcases hvalues key _ hentry with hfield | hlevel
    · cases hfield.flat with
      | literal h => cases h
      | array h => exact (h _ hwords).isWords
    · obtain ⟨attempt, -, -, hheld⟩ := hlevel.attempt
      cases hheld
  key := by
    intro key held hentry
    rcases hvalues key held hentry with hfield | hlevel
    · exact Or.inr ⟨hfield.trimmed, hfield.comma, hfield.equals, hfield.array_iff⟩
    · exact Or.inl hlevel

/-! ## Documents -/

theorem Builder.Owned.nodup_keys_dictOf {s : State} (h : Owned s) (number : Nat) :
    (s.dictOf number).keys.Nodup := by
  have hkeys : (s.dictOf number).keys = (s.entries number).keys := by
    rw [h.dictOf_eq]
    simp [Entries.keys]
  rw [hkeys]
  exact h.nodup_keys number

/-- Every dictionary of a document is of the form that its indicator and the attempts of its log
ask for, at any depth, whether or not sections are left open. -/
theorem Document.conforms_of_ofLines {options : Options} {lines : List String} {document : Document}
    (h : ofLines options lines = .ok document) (path : Path) (dict : Dict)
    (hhas : document.HasAt path dict) :
    dict.Conforms options.arrayIndicator (attempts options lines) path := by
  have hlevels := hasLevels_of_ofLines h
  obtain ⟨s, pathOf, hrun, rfl, haddressed, horigins⟩ :=
    Builder.origins_of_ofLines h fun _ hrecord => Record.conforming_of_mem_readAll hrecord
  have howned := Builder.owned_of_runLines hrun
  have hfilled := Builder.filled_of_runLines hrun
  obtain ⟨number, hnumber, rfl, rfl⟩ := howned.exists_of_hasAt haddressed hhas
  apply Dict.Conforms.of_values (howned.nodup_keys_dictOf number)
  · intro key items hentry
    obtain ⟨numbers, hslot, rfl⟩ := howned.list_mem_dictOf hentry
    exact mt List.map_eq_nil_iff.mp (hfilled.ne_nil hslot)
  · intro key held hentry
    rcases horigins.of_mem (howned.value_mem_dictOf hentry) with
      hfield | ⟨attempt, hattempt, hpath, rfl, rfl⟩
    · exact Or.inl hfield
    · -- The step of an attempt has its level first.
      have hfirst := hlevels attempt hattempt
      unfold firstAt? at hfirst
      rw [hpath, haddressed.at?_eq howned hnumber] at hfirst
      exact Or.inr ⟨⟨attempt, hattempt, hpath, rfl⟩, rfl, hfirst⟩

/-- A log that is cut off in a section of a step, and has a field with the key of time levels there. -/
def levelledLog : List String :=
  ["[I][rank 0][ARK][begin-step-attempt] h = 1e-3, status = a=b, Level =",
    " 7 ",
    "to go",
    "[I][rank 0][NLS][begin-nls] level = 5, k = 1",
    "nan"]

/-- The document of that log, where the keys that end with `vel` are those of arrays. -/
def levelled : Document where
  globals := []
  steps :=
    [[(Step.levelKey, .value (.integer 0)),
      ("h", .value (.ofLiteral "0.001")),
      ("status", .value (.text "a=b")),
      ("Level", .value (.array [.integer 7, .text "to go"])),
      ("nls", .dict [(Step.levelKey, .value (.array [.real .nan])), ("k", .value (.integer 1))])]]

theorem Document.conforms_of_ofLines_levelled :
    ofLines { arrayIndicator := "vel" } levelledLog = .ok levelled ∧
      ∀ path dict, levelled.HasAt path dict →
        dict.Conforms "vel" (attempts { arrayIndicator := "vel" } levelledLog) path := by
  have hparse : ofLines { arrayIndicator := "vel" } levelledLog = .ok levelled := by decide +kernel
  exact ⟨hparse, conforms_of_ofLines hparse⟩

end SolverLog
