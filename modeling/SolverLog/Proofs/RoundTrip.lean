import SolverLog.Proofs.Arrays
import SolverLog.Proofs.Decoded
import SolverLog.Proofs.Grammar
import SolverLog.Proofs.Literals

/-!
# Records are written and read back

`Record.line` writes a record as a record line. A record is well formed if it has no array and no text
that would be taken apart (`Record.WellFormed`).

* `Payload.WellFormed.decode_text`, `Payload.wellFormed_decode` — fields that are written are decoded again, and
  fields that are decoded are well formed.
* `Record.read?_line` — a well-formed record is read back from its line, and every record that is read
  without an array is well formed.
-/

namespace SolverLog

/-! ## Writing -/

/-- The text of a field. -/
def Payload.fieldText (field : String × Value) : String :=
  field.1 ++ " = " ++ field.2.display

/-- The text of fields, as it stands behind the label of a record line. -/
def Payload.text (payload : Payload) : String :=
  " " ++ ", ".intercalate (payload.map fieldText)

/-- The line of a record. -/
def Record.line (record : Record) : String :=
  "[" ++ record.level ++ "][rank " ++ Number.integerText record.rank ++ "][" ++ record.scope ++ "][" ++
    record.label ++ "]" ++ record.payload.text

/-- Fields that can be written: no array, no key or text that would be taken apart, and no field of
which nothing would be left. -/
structure Payload.WellFormed (indicator : String) (payload : Payload) : Prop where
  nodup_keys : payload.keys.Nodup
  trimmed : ∀ key ∈ payload.keys, Text.trim key.toList = key.toList
  key : ∀ key ∈ payload.keys, ',' ∉ key.toList ∧ '=' ∉ key.toList ∧ '\n' ∉ key.toList
  scalar : ∀ key ∈ payload.keys, ¬ArrayKey indicator key
  literal : ∀ field ∈ payload, field.2.IsLiteral
  words : ∀ key words, (key, Value.text words) ∈ payload →
    ',' ∉ words.toList ∧ '\n' ∉ words.toList
  nonempty : ("", Value.text "") ∉ payload

/-- A record that can be written. -/
structure Record.WellFormed (indicator : String) (record : Record) : Prop where
  level_ne : record.level ≠ ""
  level : ∀ c ∈ record.level.toList, c ≠ '[' ∧ c ≠ ']' ∧ Text.isBlank c = false
  rank : Number.FitsInteger record.rank
  scope : ']' ∉ record.scope.toList
  label : ']' ∉ record.label.toList
  payload : record.payload.WellFormed indicator

/-! ## Setting keys that are new -/

/-- Keys of which none is there twice are set in their order. -/
theorem Entries.putAll_of_nodup {α : Type} {entries more : Entries α}
    (h : (entries ++ more).keys.Nodup) : entries.putAll more = entries ++ more := by
  induction more generalizing entries with
  | nil => exact (List.append_nil entries).symm
  | cons field rest ih =>
      obtain ⟨key, value⟩ := field
      have hnone : entries.value? key = none := by
        rw [← Option.not_isSome_iff_eq_none, Entries.value?_isSome_iff]
        intro hkey
        rw [keys, List.map_append, List.nodup_append] at h
        exact h.2.2 key hkey key List.mem_cons_self rfl
      show (entries.put key value).putAll rest = entries ++ (key, value) :: rest
      rw [put_of_value?_eq_none value hnone, ih, List.append_assoc]
      · rfl
      · rwa [List.append_assoc]

theorem Entries.nodup_keys_putAll {α : Type} {entries : Entries α} (h : entries.keys.Nodup)
    (more : List (String × α)) : (entries.putAll more).keys.Nodup := by
  induction more generalizing entries with
  | nil => exact h
  | cons field rest ih => exact ih (nodup_keys_put h field.1 field.2)

namespace Payload

variable {indicator : String} {payload : Payload} {field : String × Value}

/-! ## Decoding what is written -/

/-- Pieces behind blanks, with commas between them. -/
theorem cons_intercalate {pieces : List (List Char)} (hne : pieces ≠ []) :
    ' ' :: [',', ' '].intercalate pieces = [','].intercalate (pieces.map (' ' :: ·)) := by
  induction pieces with
  | nil => exact absurd rfl hne
  | cons piece rest ih =>
      cases rest with
      | nil => simp
      | cons next rest =>
          have hrest := ih (List.cons_ne_nil next rest)
          rw [List.map_cons] at hrest
          simp only [List.map_cons, List.intercalate_cons_cons, ← hrest, List.cons_append,
            List.append_assoc, List.nil_append]

theorem toList_fieldText (field : String × Value) :
    (fieldText field).toList = field.1.toList ++ ' ' :: '=' :: ' ' :: field.2.display.toList := by
  simp [fieldText]

theorem toList_text (payload : Payload) :
    payload.text.toList =
      ' ' :: [',', ' '].intercalate (payload.map fun field => (fieldText field).toList) := by
  rw [text, String.toList_append, String.toList_intercalate, List.map_map]
  rfl

/-- The text of fields is split into the texts of the fields. -/
theorem splitOn_text (hne : payload ≠ []) (hcomma : ∀ field ∈ payload, ',' ∉ (fieldText field).toList) :
    payload.text.toList.splitOn ',' = payload.map fun field => ' ' :: (fieldText field).toList := by
  rw [toList_text, cons_intercalate (by simpa using hne), List.map_map]
  refine List.splitOn_intercalate ',' ?_ (by simpa using hne)
  intro piece hpiece hmem
  obtain ⟨field, hfield, rfl⟩ := List.mem_map.mp hpiece
  rcases List.mem_cons.mp hmem with hblank | hmem
  · cases hblank
  · exact hcomma field hfield hmem

/-- A field is split at its first equals sign. -/
theorem splitField_of_mem {key text : List Char} (h : '=' ∉ key) :
    splitField (key ++ '=' :: text) = (Text.trim key, Text.trim text) := by
  have hkey : ∀ c ∈ key, decide (c ≠ '=') = true := fun c hc =>
    decide_eq_true fun heq => h (heq ▸ hc)
  unfold splitField
  rw [List.takeWhile_append_of_pos hkey, List.dropWhile_append_of_pos hkey,
    List.takeWhile_cons_of_neg (by decide), List.dropWhile_cons_of_neg (by decide), List.append_nil,
    List.drop_one, List.tail_cons]

/-- The text of a field is split into its key and the text of its value. -/
theorem splitField_fieldText (htrim : Text.trim field.1.toList = field.1.toList)
    (hequals : '=' ∉ field.1.toList) (hliteral : field.2.IsLiteral) :
    splitField (' ' :: (fieldText field).toList) =
      (field.1.toList, field.2.display.toList) := by
  have hblank : ∀ c ∈ [' '], Text.isBlank c := List.all_eq_true.mp (by decide)
  have hsplit : ' ' :: (fieldText field).toList =
      (' ' :: (field.1.toList ++ [' '])) ++ '=' :: ' ' :: field.2.display.toList := by
    simp [toList_fieldText]
  rw [hsplit, splitField_of_mem (by simp [hequals])]
  refine Prod.ext ?_ ?_
  · exact (Text.trim_blanks_append hblank _).trans ((Text.trim_append_blanks hblank _).trans htrim)
  · exact (Text.trim_blanks_append hblank _).trans hliteral.trim_display

namespace WellFormed

variable (h : payload.WellFormed indicator)
include h

/-- No comma and no line feed is in the text of a field. -/
theorem fieldText_of_mem (hfield : field ∈ payload) :
    ',' ∉ (fieldText field).toList ∧ '\n' ∉ (fieldText field).toList := by
  have hkey := h.key field.1 (Entries.mem_keys_of_mem hfield)
  have hliteral := h.literal field hfield
  have hwords (words : String) (heq : field.2 = .text words) :
      ',' ∉ words.toList ∧ '\n' ∉ words.toList :=
    h.words field.1 words (heq ▸ hfield)
  have hcomma := hliteral.not_mem_display (c := ',') (by decide) fun words heq => (hwords words heq).1
  have hfeed := hliteral.not_mem_display (c := '\n') (by decide) fun words heq => (hwords words heq).2
  rw [toList_fieldText]
  simp [hkey, hcomma, hfeed]

/-- A field is not blank: its key is not, or the text of its value. -/
theorem splitField_ne (hfield : field ∈ payload) :
    (field.1.toList, field.2.display.toList) ≠ ([], []) := by
  intro hblank
  rw [Prod.mk.injEq, String.toList_eq_nil_iff, String.toList_eq_nil_iff] at hblank
  have hvalue := (h.literal field hfield).ofLiteral_display
  rw [hblank.2] at hvalue
  have hempty : field = ("", Value.text "") := Prod.ext hblank.1 hvalue.symm
  exact h.nonempty (hempty ▸ hfield)

/-- The fields of the text of fields. -/
theorem fields_text :
    fields payload.text = payload.map fun field => (field.1.toList, field.2.display.toList) := by
  unfold fields
  by_cases hempty : payload = []
  · rw [hempty]
    decide
  · rw [splitOn_text hempty fun field hfield => (h.fieldText_of_mem hfield).1, List.map_map]
    have hsplit : payload.map (splitField ∘ fun field => ' ' :: (fieldText field).toList) =
        payload.map fun field => (field.1.toList, field.2.display.toList) := by
      refine List.map_congr_left fun field hfield => ?_
      have hkey := Entries.mem_keys_of_mem hfield
      exact splitField_fieldText (h.trimmed _ hkey) (h.key _ hkey).2.1 (h.literal field hfield)
    rw [hsplit, List.filter_eq_self]
    intro split hsplit
    obtain ⟨field, hfield, rfl⟩ := List.mem_map.mp hsplit
    exact decide_eq_true (h.splitField_ne hfield)

/-- No line feed is in the text of fields. -/
theorem not_mem_text : '\n' ∉ payload.text.toList := by
  rw [toList_text, List.mem_cons, not_or]
  refine ⟨by decide, Text.not_mem_intercalate (by decide) ?_⟩
  intro piece hpiece
  obtain ⟨field, hfield, rfl⟩ := List.mem_map.mp hpiece
  exact (h.fieldText_of_mem hfield).2

/-- Fields that are written are decoded again. -/
theorem decode_text (following : List String) : decode indicator following payload.text = payload := by
  have hvalue (field : String × Value) (hfield : field ∈ payload) :
      valueOf indicator following field.1.toList field.2.display.toList = field.2 := by
    have hscalar := h.scalar field.1 (Entries.mem_keys_of_mem hfield)
    rw [valueOf_of_not_arrayKey (by rwa [String.ofList_toList]), String.ofList_toList]
    exact (h.literal field hfield).ofLiteral_display
  have hfields : (payload.map fun field => (field.1.toList, field.2.display.toList)).map
      (fun split => (String.ofList split.1, valueOf indicator following split.1 split.2)) =
        payload := by
    rw [List.map_map]
    conv_rhs => rw [← List.map_id payload]
    refine List.map_congr_left fun field hfield => ?_
    exact Prod.ext String.ofList_toList (hvalue field hfield)
  have hdecode : decode indicator following payload.text =
      Entries.putAll [] ((fields payload.text).map fun split =>
        (String.ofList split.1, valueOf indicator following split.1 split.2)) := rfl
  rw [hdecode, h.fields_text, hfields]
  exact @Entries.putAll_of_nodup _ [] payload h.nodup_keys

end WellFormed

/-! ## What is decoded -/

/-- What the key and the text of a field of a payload consist of. -/
theorem mem_fields {written : String} {key text : List Char} (h : (key, text) ∈ fields written) :
    (∀ c ∈ key, c ∈ written.toList ∧ c ≠ ',' ∧ c ≠ '=') ∧
      (∀ c ∈ text, c ∈ written.toList ∧ c ≠ ',') ∧
        Text.trim key = key ∧ Text.trim text = text ∧ (key, text) ≠ ([], []) := by
  obtain ⟨hsplit, hne⟩ := List.mem_filter.mp h
  obtain ⟨piece, hpiece, heq⟩ := List.mem_map.mp hsplit
  unfold splitField at heq
  rw [Prod.mk.injEq] at heq
  obtain ⟨rfl, rfl⟩ := heq
  refine ⟨?_, ?_, Text.trim_trim _, Text.trim_trim _, of_decide_eq_true hne⟩
  · intro c hc
    have hbefore := Text.mem_of_mem_trim hc
    have hequals := List.mem_takeWhile_imp (p := fun c => decide (c ≠ '=')) hbefore
    obtain ⟨hwritten, hcomma⟩ :=
      Text.mem_of_mem_splitOn hpiece ((List.takeWhile_subset _) hbefore)
    exact ⟨hwritten, hcomma, of_decide_eq_true hequals⟩
  · intro c hc
    have hafter := List.drop_subset 1 _ (Text.mem_of_mem_trim hc)
    exact Text.mem_of_mem_splitOn hpiece ((List.dropWhile_suffix _).subset hafter)

/-- A decoded field that is no array is read off a field of the payload. -/
theorem exists_of_mem_decode {following : List String} {written : String}
    (hscalar : ∀ key ∈ (decode indicator following written).keys, ¬ArrayKey indicator key)
    (h : field ∈ decode indicator following written) :
    ∃ text, (field.1.toList, text) ∈ fields written ∧
      field.2 = Value.ofLiteral (String.ofList text) := by
  have hkey := hscalar field.1 (Entries.mem_keys_of_mem h)
  obtain ⟨key, text, hfield, rfl⟩ := mem_decode h
  rw [String.toList_ofList]
  exact ⟨text, hfield, valueOf_of_not_arrayKey hkey⟩

/-- Fields that are decoded are well formed if none of them is an array. -/
theorem wellFormed_decode {following : List String} {written : String}
    (hfeed : '\n' ∉ written.toList)
    (hscalar : ∀ key ∈ (decode indicator following written).keys, ¬ArrayKey indicator key) :
    (decode indicator following written).WellFormed indicator := by
  have hread := fun field => @exists_of_mem_decode indicator field following written hscalar
  have hkeys : ∀ key ∈ (decode indicator following written).keys,
      ∃ text, (key.toList, text) ∈ fields written := by
    intro key hkey
    obtain ⟨field, hfield, rfl⟩ := List.mem_map.mp hkey
    obtain ⟨text, hmem, -⟩ := hread field hfield
    exact ⟨text, hmem⟩
  refine ⟨@Entries.nodup_keys_putAll _ [] List.nodup_nil _, ?_, ?_, hscalar, ?_, ?_, ?_⟩
  · intro key hkey
    obtain ⟨text, hmem⟩ := hkeys key hkey
    exact (mem_fields hmem).2.2.1
  · intro key hkey
    obtain ⟨text, hmem⟩ := hkeys key hkey
    have hchars := (mem_fields hmem).1
    exact ⟨fun hc => (hchars _ hc).2.1 rfl, fun hc => (hchars _ hc).2.2 rfl,
      fun hc => hfeed (hchars _ hc).1⟩
  · intro field hfield
    obtain ⟨text, -, heq⟩ := hread field hfield
    rw [heq]
    exact Value.isLiteral_ofLiteral _
  · intro key words hfield
    obtain ⟨text, hmem, heq⟩ := hread _ hfield
    have hwords := Value.eq_trim_of_ofLiteral heq.symm
    rw [String.toList_ofList] at hwords
    rw [hwords]
    have hchars := (mem_fields hmem).2.1
    exact ⟨fun hc => (hchars _ (Text.mem_of_mem_trim hc)).2 rfl,
      fun hc => hfeed (hchars _ (Text.mem_of_mem_trim hc)).1⟩
  · intro hfield
    obtain ⟨text, hmem, heq⟩ := hread _ hfield
    have hwords := Value.eq_trim_of_ofLiteral heq.symm
    obtain ⟨-, -, -, htrim, hne⟩ := mem_fields hmem
    have hempty : text = [] := by
      rw [← htrim, ← @String.toList_ofList text]
      exact hwords.symm
    exact hne (Prod.ext rfl hempty)

end Payload

/-! ## Records -/

/-- The text of an integer is one of a rank. -/
theorem Header.rankText_integerText (rank : Int) :
    RankText (Number.integerText rank).toList rank := by
  have hdigits : ∀ c ∈ Nat.toDigits 10 rank.natAbs, c.isDigit := Number.isDigit_of_mem_toDigits
  have hne : Nat.toDigits 10 rank.natAbs ≠ [] := Nat.toDigits_ne_nil
  rw [Number.toList_integerText]
  by_cases hnegative : rank < 0
  · have htext := RankText.minus hne hdigits
    rw [Nat.ofDigitChars_ten_toDigits, Int.ofNat_natAbs_of_nonpos hnegative.le, neg_neg] at htext
    rwa [decide_eq_true hnegative]
  · have htext := RankText.plain hne hdigits
    rw [Nat.ofDigitChars_ten_toDigits, Int.natAbs_of_nonneg (not_lt.mp hnegative)] at htext
    rwa [decide_eq_false hnegative]

namespace Record

variable {indicator : String} {record : Record}

/-- The header of the line of a record. -/
def header (record : Record) : Header where
  level := record.level
  rank := record.rank
  scope := record.scope
  label := record.label
  payload := record.payload.text

theorem WellFormed.written (h : record.WellFormed indicator) :
    record.header.Written (Number.integerText record.rank) record.line :=
  ⟨rfl, h.level_ne, h.level, Header.rankText_integerText record.rank, h.rank, h.scope, h.label,
    h.payload.not_mem_text⟩

/-- A well-formed record is read from its line. -/
theorem WellFormed.read?_eq (h : record.WellFormed indicator) (following : List String) :
    read? indicator record.line following = some record := by
  unfold read?
  rw [h.written.read?_eq, Option.map_some]
  show some { record with payload := Payload.decode indicator following record.payload.text } = _
  rw [h.payload.decode_text]

/-- A record that is read without an array is well formed. -/
theorem wellFormed_of_read? {line : String} {following : List String}
    (h : read? indicator line following = some record)
    (hscalar : ∀ key ∈ record.payload.keys, ¬Payload.ArrayKey indicator key) :
    record.WellFormed indicator := by
  obtain ⟨header, hheader, rfl⟩ := Option.map_eq_some_iff.mp h
  obtain ⟨rankText, hwritten⟩ := Header.exists_written hheader
  exact ⟨hwritten.level_ne, hwritten.level, hwritten.rank_fits, hwritten.scope, hwritten.label,
    Payload.wellFormed_decode hwritten.payload hscalar⟩

/-- Well-formed records are read from their lines, and every record that is read without an array is
well formed, so that it is read again from its own line. -/
theorem read?_line (indicator : String) :
    (∀ (record : Record) (following : List String), record.WellFormed indicator →
        read? indicator record.line following = some record) ∧
      ∀ (line : String) (following : List String) (record : Record),
        read? indicator line following = some record →
          (∀ key ∈ record.payload.keys, ¬Payload.ArrayKey indicator key) →
            record.WellFormed indicator ∧
              ∀ following' : List String, read? indicator record.line following' = some record := by
  refine ⟨fun record following h => h.read?_eq following, ?_⟩
  intro line following record hread hscalar
  have hwellFormed := wellFormed_of_read? hread hscalar
  exact ⟨hwellFormed, hwellFormed.read?_eq⟩

/-- A record line with a bracket and a line feed in its scope, a field without a key, fields without
texts, a key that occurs again, and numbers that are not written as they are displayed. -/
def tangledLine : String :=
  "[I][rank -007][a[b\nc ][] = v=w,key,, x[1] = +5 , empty, nan=NAN,zero = -0.,key=p(:) [q]="

/-- The record of that line. -/
def tangled : Record where
  level := "I"
  rank := -7
  scope := "a[b\nc "
  label := ""
  payload :=
    [("", .text "v=w"), ("key", .text "p(:) [q]="), ("x[1]", .integer 5), ("empty", .text ""),
      ("nan", .real .nan), ("zero", .ofLiteral "-0.0")]

theorem read?_line_tangled :
    read? "(:)" tangledLine [] = some tangled ∧ tangled.WellFormed "(:)" ∧
      tangled.line =
        "[I][rank -7][a[b\nc ][]  = v=w, key = p(:) [q]=, x[1] = 5, empty = , nan = NaN, zero = -0.0" ∧
      read? "(:)" tangled.line ["1", "2"] = some tangled := by
  have hread : read? "(:)" tangledLine [] = some tangled := by decide +kernel
  have hscalar : ∀ key ∈ tangled.payload.keys, ¬Payload.ArrayKey "(:)" key := by decide +kernel
  have hwellFormed := ((read?_line "(:)").2 tangledLine [] tangled hread hscalar).1
  exact ⟨hread, hwellFormed, by decide +kernel, (read?_line "(:)").1 tangled ["1", "2"] hwellFormed⟩

end Record

end SolverLog
