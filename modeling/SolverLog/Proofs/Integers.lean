import SolverLog.Proofs.Numerals

/-!
# Integers as they are read

An integer is an optional sign and at least one digit, and what these denote fits in 64 bits.

* `integer?_eq_some_iff` — the texts that are read as an integer.
* `integer?_integerText` — the text of an integer of 64 bits is one of them.
-/

namespace SolverLog.Number

/-- The integer of that sign and size. -/
def signedValue (negative : Bool) (size : Nat) : Int :=
  if negative then -size else size

/-- An integer is its sign and its size. -/
theorem signedValue_natAbs (value : Int) : signedValue (value < 0) value.natAbs = value := by
  unfold signedValue
  by_cases hnegative : value < 0
  · rw [decide_eq_true hnegative, if_pos rfl]
    omega
  · rw [decide_eq_false hnegative, if_neg Bool.false_ne_true]
    omega

/-- The integers of 64 bits. -/
def FitsInteger (value : Int) : Prop :=
  leastInteger ≤ value ∧ value ≤ greatestInteger

instance (value : Int) : Decidable (FitsInteger value) :=
  inferInstanceAs (Decidable (leastInteger ≤ value ∧ value ≤ greatestInteger))

/-- A sign is a minus sign, a plus sign, or none. -/
theorem takeSign_cases (text : List Char) :
    (∃ rest, text = '-' :: rest ∧ takeSign text = (true, rest)) ∨
      (∃ rest, text = '+' :: rest ∧ takeSign text = (false, rest)) ∨
        takeSign text = (false, text) := by
  unfold takeSign
  split
  · exact .inl ⟨_, rfl, rfl⟩
  · exact .inr (.inl ⟨_, rfl, rfl⟩)
  · exact .inr (.inr rfl)

theorem natural?_eq_some_iff {text : List Char} {size : Nat} :
    natural? text = some size ↔
      text ≠ [] ∧ (∀ c ∈ text, c.isDigit) ∧ size = Nat.ofDigitChars 10 text 0 := by
  unfold natural?
  rw [Option.ite_none_right_eq_some, List.all_eq_true, Option.some.injEq, digitsValue_eq, and_assoc,
    eq_comm (a := size)]

theorem signedInteger?_eq_some_iff {negative : Bool} {size : Nat} {value : Int} :
    signedInteger? negative size = some value ↔
      value = signedValue negative size ∧ FitsInteger value := by
  unfold signedInteger?
  rw [Option.ite_none_right_eq_some, Option.some.injEq]
  constructor
  · rintro ⟨hfits, rfl⟩
    exact ⟨rfl, hfits⟩
  · rintro ⟨rfl, hfits⟩
    exact ⟨hfits, rfl⟩

/-- An integer is read off the digits after its sign. -/
theorem integer?_eq_some_iff {text : List Char} {value : Int} :
    integer? text = some value ↔
      (takeSign text).2 ≠ [] ∧ (∀ c ∈ (takeSign text).2, c.isDigit) ∧
        value = signedValue (takeSign text).1 (Nat.ofDigitChars 10 (takeSign text).2 0) ∧
          FitsInteger value := by
  unfold integer?
  simp only [Option.bind_eq_some_iff, natural?_eq_some_iff, signedInteger?_eq_some_iff]
  constructor
  · rintro ⟨size, ⟨hne, hdigits, rfl⟩, hvalue⟩
    exact ⟨hne, hdigits, hvalue⟩
  · rintro ⟨hne, hdigits, hvalue⟩
    exact ⟨_, ⟨hne, hdigits, rfl⟩, hvalue⟩

/-- The text of an integer is read as that integer. -/
theorem integer?_integerText {value : Int} (h : FitsInteger value) :
    integer? (integerText value).toList = some value := by
  rw [integer?_eq_some_iff, toList_integerText, takeSign_signed (head?_toDigits _)]
  refine ⟨Nat.toDigits_ne_nil, isDigit_of_mem_toDigits, ?_, h⟩
  rw [Nat.ofDigitChars_ten_toDigits, signedValue_natAbs]

end SolverLog.Number
