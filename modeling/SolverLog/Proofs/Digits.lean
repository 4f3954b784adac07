import Mathlib.Logic.Function.Basic
import SolverLog.Number.Integer
import SolverLog.Step

/-!
# Decimal digits

The decimal digits of a number are read as that number (`digitsValue_toDigits`), so different numbers
have different digits.
-/

namespace SolverLog.Number

theorem digitsValue_eq (digits : List Char) : digitsValue digits = Nat.ofDigitChars 10 digits 0 :=
  rfl

/-- The digits of a number are read as that number. -/
theorem digitsValue_toDigits (n : Nat) : digitsValue (Nat.toDigits 10 n) = n :=
  (digitsValue_eq _).trans Nat.ofDigitChars_ten_toDigits

theorem repr_injective : Function.Injective Nat.repr := by
  intro m n h
  rw [← digitsValue_toDigits m, ← digitsValue_toDigits n]
  exact congrArg digitsValue (String.ofList_injective h)

end SolverLog.Number

namespace SolverLog.Step

/-- Different time levels have different keys. -/
theorem timeLevelKey_injective : Function.Injective timeLevelKey := by
  intro m n h
  exact Number.repr_injective ((String.append_right_inj timeLevelStem).mp h)

end SolverLog.Step
