import SolverLog.Proofs.Integers
import SolverLog.Proofs.Splitting
import SolverLog.Value

/-!
# Literals

What a literal is read as is written as a literal again by displaying it (`Value.IsLiteral.ofLiteral_display`).
Integers and numbers are told apart by their texts, and a text that is neither is its own literal.

* `Value.IsLiteral` — the values that literals are read as, and no others (`Value.isLiteral_ofLiteral`).
* `Value.IsLiteral.trim_display` — no blank is at an end of a displayed literal.
-/

namespace SolverLog

namespace Number

/-! ## The characters of numbers -/

/-- A character of the text of an integer or of a number, NaN and the infinities included. -/
def InNumber (c : Char) : Prop :=
  isNumeric c ∨ c ∈ "NaN".toList ∨ c ∈ "inf".toList

instance (c : Char) : Decidable (InNumber c) :=
  inferInstanceAs (Decidable (isNumeric c ∨ c ∈ "NaN".toList ∨ c ∈ "inf".toList))

theorem isBlank_of_isDigit {c : Char} (h : c.isDigit) : Text.isBlank c = false := by
  simp only [Char.isDigit, Bool.and_eq_true, decide_eq_true_eq, ge_iff_le,
    UInt32.le_iff_toNat_le] at h
  have hzero : '0'.val.toNat = 48 := rfl
  have hnine : '9'.val.toNat = 57 := rfl
  unfold Text.isBlank
  rw [List.any_eq_false]
  intro range hrange
  -- The digits are between two ranges of blank characters.
  have hapart : range.2 < 48 ∨ 57 < range.1 := by
    revert range
    decide
  rw [Bool.and_eq_true, decide_eq_true_eq, decide_eq_true_eq]
  change ¬(range.1 ≤ c.val.toNat ∧ c.val.toNat ≤ range.2)
  omega

theorem InNumber.isBlank {c : Char} (h : InNumber c) : Text.isBlank c = false := by
  have hnanBlank : "NaN".toList.all (fun c => !Text.isBlank c) = true := by decide
  have hinfBlank : "inf".toList.all (fun c => !Text.isBlank c) = true := by decide
  rcases h with hnumeric | hnan | hinf
  · unfold isNumeric at hnumeric
    simp only [Bool.or_eq_true, decide_eq_true_eq] at hnumeric
    rcases hnumeric with (((hdigit | rfl) | rfl) | rfl) | rfl
    · exact isBlank_of_isDigit hdigit
    · decide
    · decide
    · decide
    · decide
  · simpa using List.all_eq_true.mp hnanBlank c hnan
  · simpa using List.all_eq_true.mp hinfBlank c hinf

theorem inNumber_of_mem_integerText {value : Int} :
    ∀ c ∈ (integerText value).toList, InNumber c :=
  fun c hc => .inl (isNumeric_of_mem_integerText c hc)

theorem Style.inNumber_of_mem_text (style : Style) (number : Binary64) :
    ∀ c ∈ (style.text number).toList, InNumber c := by
  intro c hc
  cases number with
  | nan => exact .inr (.inl hc)
  | infinite negative =>
      rw [text, String.toList_ofList] at hc
      rcases mem_signed hc with rfl | hc
      · exact .inl (by decide)
      · exact .inr (.inr hc)
  | finite negative magnitude => exact .inl (style.isNumeric_of_mem_finiteText negative magnitude c hc)

/-- No character of an integer marks a number. -/
theorem isMark_of_integer? {text : List Char} {value : Int} (h : integer? text = some value) :
    ∀ c ∈ text, isMark c = false := by
  obtain ⟨-, hdigits, -⟩ := integer?_eq_some_iff.mp h
  intro c hc
  rcases takeSign_cases text with ⟨rest, rfl, hsign⟩ | ⟨rest, rfl, hsign⟩ | hsign
  · rw [hsign] at hdigits
    rcases List.mem_cons.mp hc with rfl | hc
    · decide
    · exact isMark_of_isDigit (hdigits c hc)
  · rw [hsign] at hdigits
    rcases List.mem_cons.mp hc with rfl | hc
    · decide
    · exact isMark_of_isDigit (hdigits c hc)
  · rw [hsign] at hdigits
    exact isMark_of_isDigit (hdigits c hc)

/-- The text of a number is not that of an integer. -/
theorem Style.integer?_text (style : Style) (number : Binary64) :
    integer? (style.text number).toList = none := by
  cases number with
  | nan => exact (by decide : integer? "NaN".toList = none)
  | infinite negative =>
      cases negative with
      | false => exact (by decide : integer? "inf".toList = none)
      | true => exact (by decide : integer? "-inf".toList = none)
  | finite negative magnitude =>
      obtain ⟨c, hc, hmark⟩ := style.exists_mark negative magnitude
      cases hread : integer? (style.text (.finite negative magnitude)).toList with
      | none => rfl
      | some value =>
          rw [isMark_of_integer? hread c hc] at hmark
          cases hmark

end Number

namespace Value

open Number

/-! ## Reading literals -/

/-- A literal without the blanks around it is an integer, else a number, else itself. -/
theorem ofLiteral_cases (literal : String) :
    (∃ value, Number.integer? (Text.trim literal.toList) = some value ∧
        ofLiteral literal = integer value) ∨
      (∃ value, Number.integer? (Text.trim literal.toList) = none ∧
        Binary64.read? (Text.trim literal.toList) = some value ∧ ofLiteral literal = real value) ∨
      (Number.integer? (Text.trim literal.toList) = none ∧
        Binary64.read? (Text.trim literal.toList) = none ∧
          ofLiteral literal = text (String.ofList (Text.trim literal.toList))) := by
  unfold ofLiteral
  dsimp only
  split
  · next value hinteger => exact .inl ⟨value, hinteger, rfl⟩
  · next hinteger =>
      split
      · next value hreal => exact .inr (.inl ⟨value, hinteger, hreal, rfl⟩)
      · next hreal => exact .inr (.inr ⟨hinteger, hreal, rfl⟩)

/-- Blanks around a literal do not count. -/
theorem ofLiteral_trim (literal : String) :
    ofLiteral (String.ofList (Text.trim literal.toList)) = ofLiteral literal := by
  unfold ofLiteral
  rw [String.toList_ofList, Text.trim_trim]

theorem trim_of_inNumber {text : List Char} (h : ∀ c ∈ text, InNumber c) :
    Text.trim text = text :=
  Text.trim_eq_self_of_forall fun c hc => (h c hc).isBlank

theorem ofLiteral_integerText {value : Int} (h : FitsInteger value) :
    ofLiteral (integerText value) = integer value := by
  unfold ofLiteral
  simp only [trim_of_inNumber inNumber_of_mem_integerText, integer?_integerText h]

theorem ofLiteral_styleText (style : Style) (number : Binary64) :
    ofLiteral (style.text number) = real number := by
  unfold ofLiteral
  simp only [trim_of_inNumber (style.inNumber_of_mem_text number), style.integer?_text,
    style.read?_text]

/-- What a literal is read as: an integer of 64 bits, a number, or a text that is read as itself. -/
inductive IsLiteral : Value → Prop where
  | integer {value : Int} (h : FitsInteger value) : IsLiteral (.integer value)
  | real (value : Binary64) : IsLiteral (.real value)
  | text {words : String} (h : ofLiteral words = .text words) : IsLiteral (.text words)

theorem isLiteral_ofLiteral (literal : String) : (ofLiteral literal).IsLiteral := by
  rcases ofLiteral_cases literal with ⟨value, hread, heq⟩ | ⟨value, -, -, heq⟩ | ⟨-, -, heq⟩
  · rw [heq]
    exact .integer (integer?_eq_some_iff.mp hread).2.2.2
  · rw [heq]
    exact .real value
  · rw [heq]
    exact .text ((ofLiteral_trim literal).trans heq)

/-- A text that a literal is read as is the literal without the blanks around it. -/
theorem eq_trim_of_ofLiteral {literal words : String} (h : ofLiteral literal = .text words) :
    words.toList = Text.trim literal.toList := by
  rcases ofLiteral_cases literal with ⟨value, -, heq⟩ | ⟨value, -, -, heq⟩ | ⟨-, -, heq⟩
  · rw [heq] at h
    cases h
  · rw [heq] at h
    cases h
  · rw [heq] at h
    cases h
    exact String.toList_ofList

namespace IsLiteral

variable {value : Value}

/-- The text of a literal is read as that literal. -/
theorem ofLiteral_display (h : value.IsLiteral) : ofLiteral value.display = value := by
  cases h with
  | integer hfits =>
      rw [display]
      exact ofLiteral_integerText hfits
  | real number =>
      rw [display]
      exact ofLiteral_styleText displayStyle number
  | text hwords =>
      rw [display]
      exact hwords

theorem trim_display (h : value.IsLiteral) :
    Text.trim value.display.toList = value.display.toList := by
  cases h with
  | integer =>
      rw [display]
      exact trim_of_inNumber inNumber_of_mem_integerText
  | real number =>
      rw [display]
      exact trim_of_inNumber (displayStyle.inNumber_of_mem_text number)
  | text hwords =>
      rw [display]
      exact (eq_trim_of_ofLiteral hwords).symm

/-- A character that is in no number is in a displayed literal only if that is a text. -/
theorem not_mem_display (h : value.IsLiteral) {c : Char} (hc : ¬InNumber c)
    (hwords : ∀ words, value = .text words → c ∉ words.toList) : c ∉ value.display.toList := by
  cases h with
  | integer =>
      rw [display]
      exact fun hmem => hc (inNumber_of_mem_integerText c hmem)
  | real number =>
      rw [display]
      exact fun hmem => hc (displayStyle.inNumber_of_mem_text number c hmem)
  | text =>
      rw [display]
      exact hwords _ rfl

end IsLiteral

end Value

end SolverLog
