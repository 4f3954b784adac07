import SolverLog.Proofs.ReadBack

/-!
# Numerals

A numeral is the text of an integer or of a finite number. Its characters are digits, signs, a point
and the letter of the exponent (`isNumeric`). The text of a finite number has a point or an exponent
(`Style.exists_mark`), which the text of an integer has not, so a numeral tells an integer from a
number, and which one it is.
-/

namespace SolverLog.Number

/-- A character of numerals. -/
def isNumeric (c : Char) : Bool :=
  c.isDigit || c = '.' || c = 'e' || c = '-' || c = '+'

/-- A character that marks the numeral of a number that is not an integer. -/
def isMark (c : Char) : Bool :=
  c = '.' || c = 'e'

theorem isNumeric_of_isDigit {c : Char} (h : c.isDigit) : isNumeric c := by
  simp [isNumeric, h]

theorem isMark_of_isDigit {c : Char} (h : c.isDigit) : isMark c = false := by
  unfold isMark
  rw [Bool.or_eq_false_iff, decide_eq_false_iff_not, decide_eq_false_iff_not]
  constructor <;> rintro rfl <;> exact absurd h (by decide)

theorem mem_signed {negative : Bool} {text : List Char} {c : Char}
    (h : c ∈ Style.signed negative text) : c = '-' ∨ c ∈ text := by
  cases negative with
  | false => exact .inr h
  | true => exact List.mem_cons.mp h

theorem mem_signed_of_mem {negative : Bool} {text : List Char} {c : Char} (h : c ∈ text) :
    c ∈ Style.signed negative text := by
  cases negative with
  | false => exact h
  | true => exact List.mem_cons_of_mem '-' h

/-! ## Integers -/

theorem toList_integerText (value : Int) :
    (integerText value).toList = Style.signed (value < 0) (Nat.toDigits 10 value.natAbs) := by
  unfold integerText Style.signed
  by_cases hnegative : value < 0
  · rw [if_pos hnegative, decide_eq_true hnegative, if_pos rfl, String.toList_append,
      Nat.toList_repr]
    rfl
  · rw [if_neg hnegative, decide_eq_false hnegative, if_neg (by decide), Nat.toList_repr]

/-- No two integers share a numeral. -/
theorem integerText_injective : Function.Injective integerText := by
  intro m n h
  have hlist := congrArg String.toList h
  rw [toList_integerText, toList_integerText] at hlist
  have hsign := congrArg takeSign hlist
  rw [takeSign_signed (head?_toDigits _), takeSign_signed (head?_toDigits _), Prod.mk.injEq,
    decide_eq_decide] at hsign
  have hsize : m.natAbs = n.natAbs := by
    rw [← digitsValue_toDigits m.natAbs, hsign.2, digitsValue_toDigits]
  omega

theorem isNumeric_of_mem_integerText {value : Int} :
    ∀ c ∈ (integerText value).toList, isNumeric c := by
  intro c hc
  rw [toList_integerText] at hc
  rcases mem_signed hc with rfl | hc
  · decide
  · exact isNumeric_of_isDigit (isDigit_of_mem_toDigits c hc)

/-- An integer has no mark. -/
theorem isMark_of_mem_integerText {value : Int} :
    ∀ c ∈ (integerText value).toList, isMark c = false := by
  intro c hc
  rw [toList_integerText] at hc
  rcases mem_signed hc with rfl | hc
  · decide
  · exact isMark_of_isDigit (isDigit_of_mem_toDigits c hc)

/-! ## Finite numbers -/

namespace Digits

variable {number : Digits} {magnitude : Magnitude}

theorem isNumeric_of_mem_positional (h : number.Denotes magnitude) :
    ∀ c ∈ number.positional, isNumeric c := by
  intro c hc
  have hdigit : c ∈ number.digits → isNumeric c := fun hc => isNumeric_of_isDigit (h.isDigit c hc)
  have hzero (count : Nat) : c ∈ zeros count → isNumeric c := fun hc =>
    isNumeric_of_isDigit (isDigit_of_mem_zeros hc)
  have hpoint : c = '.' → isNumeric c := by
    rintro rfl
    decide
  unfold positional at hc
  split at hc
  · simp only [List.cons_append, List.mem_cons, List.mem_append] at hc
    rcases hc with rfl | hc | hc | hc
    · decide
    · exact hpoint hc
    · exact hzero _ hc
    · exact hdigit hc
  · simp only [List.mem_append, List.mem_cons] at hc
    rcases hc with (hc | hc) | hc | hc
    · exact hdigit (List.mem_of_mem_take hc)
    · exact hzero _ hc
    · exact hpoint hc
    · split at hc
      · exact hzero 1 hc
      · exact hdigit (List.mem_of_mem_drop hc)

theorem isNumeric_of_mem_scientific (h : number.Denotes magnitude) (plus : Bool) :
    ∀ c ∈ number.scientific plus, isNumeric c := by
  intro c hc
  obtain ⟨digits, exponent⟩ := number
  have hdigit : c ∈ digits → isNumeric c := fun hc => isNumeric_of_isDigit (h.isDigit c hc)
  have hexponent : c ∈ Decimal.exponentPart plus exponent → isNumeric c := by
    intro hc
    simp only [Decimal.exponentPart, List.cons_append, List.mem_cons, List.mem_append] at hc
    rcases hc with rfl | hc | hc
    · decide
    · split at hc
      · rw [List.mem_singleton.mp hc]
        decide
      · split at hc
        · rw [List.mem_singleton.mp hc]
          decide
        · cases hc
    · exact isNumeric_of_isDigit (isDigit_of_mem_toDigits c hc)
  cases digits with
  | nil => exact hexponent hc
  | cons first others =>
    cases others with
    | nil =>
      rcases List.mem_append.mp (show c ∈ [first] ++ Decimal.exponentPart plus exponent from hc)
        with hc | hc
      · exact hdigit hc
      · exact hexponent hc
    | cons second others =>
      rw [scientific_eq] at hc
      rcases List.mem_append.mp hc with hc | hc
      · exact hdigit (List.mem_append_left (second :: others) hc)
      rcases List.mem_cons.mp hc with rfl | hc
      · decide
      rcases List.mem_append.mp hc with hc | hc
      · exact hdigit (List.mem_cons_of_mem first hc)
      · exact hexponent hc

end Digits

namespace Style

variable (style : Style) (negative : Bool) (magnitude : Magnitude)

theorem isNumeric_of_mem_finiteText :
    ∀ c ∈ (style.finiteText negative magnitude).toList, isNumeric c := by
  have hdenotes := magnitude.shortest_denotes style.tie
  intro c hc
  rw [finiteText, String.toList_ofList] at hc
  rcases mem_signed hc with rfl | hc
  · decide
  · unfold layout at hc
    split at hc
    · exact Digits.isNumeric_of_mem_positional hdenotes c hc
    · exact Digits.isNumeric_of_mem_scientific hdenotes style.plus c hc

/-- A finite number has a point or an exponent. -/
theorem exists_mark : ∃ c ∈ (style.finiteText negative magnitude).toList, isMark c := by
  rw [finiteText, String.toList_ofList]
  unfold layout
  split
  · refine ⟨'.', mem_signed_of_mem ?_, by decide⟩
    unfold Digits.positional
    split <;> simp
  · refine ⟨'e', mem_signed_of_mem ?_, by decide⟩
    simp [Digits.scientific]

/-- The numeral of a finite number is not one of an integer. -/
theorem finiteText_ne_integerText (value : Int) :
    style.finiteText negative magnitude ≠ integerText value := by
  intro h
  obtain ⟨c, hc, hmark⟩ := style.exists_mark negative magnitude
  rw [h] at hc
  rw [isMark_of_mem_integerText c hc] at hmark
  cases hmark

end Style

end SolverLog.Number
