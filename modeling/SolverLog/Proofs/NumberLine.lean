import Mathlib.Order.WithBot
import SolverLog.Proofs.Gathering
import SolverLog.Proofs.Nearest

/-!
# The line of numbers

Numbers are compared by what they are: rational numbers between the two infinities, while NaN is none
of these (`Binary64.le_iff`, `Binary64.same_iff`). So a time is within a range if it is so on this line
(`Binary64.within_iff`), and a dictionary with an integer holds the number that the integer is rounded
to (`Dict.holdsNumber_iff`).
-/

namespace SolverLog

namespace Number.Binary64

/-- What a number is on the line of the rational numbers between the two infinities. NaN is nowhere
on it. -/
def value? : Binary64 → Option (WithBot (WithTop ℚ))
  | nan => none
  | infinite negative => some (if negative then ⊥ else ⊤)
  | finite negative magnitude =>
    let number : ℚ := if negative then -magnitude.value else magnitude.value
    some ((number : WithTop ℚ) : WithBot (WithTop ℚ))

/-- The place of a number, in units, and what the number is. -/
inductive StandsFor : Int → WithBot (WithTop ℚ) → Prop where
  | bot : StandsFor (-unitsLimit) ⊥
  | top : StandsFor unitsLimit ⊤
  | finite {place : Int} {value : ℚ} (hlow : -unitsLimit < place) (hhigh : place < unitsLimit)
      (hvalue : value = place / 2 ^ 1074) :
      StandsFor place ((value : WithTop ℚ) : WithBot (WithTop ℚ))

/-- The places are in the order of the numbers. -/
theorem StandsFor.le_iff {place place' : Int} {value value' : WithBot (WithTop ℚ)}
    (h : StandsFor place value) (h' : StandsFor place' value') : place ≤ place' ↔ value ≤ value' := by
  have hlimit : (0 : Int) < unitsLimit := Int.natCast_pos.mpr unitsLimit_pos
  have hunits : (0 : ℚ) < 2 ^ 1074 := pow_pos two_pos 1074
  cases h with
  | bot =>
      refine iff_of_true ?_ bot_le
      cases h' with
      | bot => exact le_rfl
      | top => omega
      | finite hlow _ _ => exact hlow.le
  | top =>
      cases h' with
      | bot => exact iff_of_false (by omega) (by simp)
      | top => exact iff_of_true le_rfl le_rfl
      | finite _ hhigh _ => exact iff_of_false (by omega) (by simp)
  | finite hlow hhigh hvalue =>
      cases h' with
      | bot => exact iff_of_false (by omega) (by simp)
      | top => exact iff_of_true hhigh.le le_top
      | finite _ _ hvalue' =>
          rw [WithBot.coe_le_coe, WithTop.coe_le_coe, hvalue, hvalue',
            div_le_div_iff_of_pos_right hunits, Int.cast_le]

/-- Every number but NaN has a place, and stands there for what it is. -/
theorem eq_nan_or_standsFor (x : Binary64) :
    x.place? = none ∧ x.value? = none ∨
      ∃ place value, x.place? = some place ∧ x.value? = some value ∧ StandsFor place value := by
  cases x with
  | nan => exact .inl ⟨rfl, rfl⟩
  | infinite negative =>
      right
      cases negative with
      | false => exact ⟨_, _, rfl, rfl, .top⟩
      | true => exact ⟨_, _, rfl, rfl, .bot⟩
  | finite negative magnitude =>
      right
      have hfinite := magnitude.representable.2
      cases negative with
      | false =>
          refine ⟨magnitude.units, _, rfl, rfl, .finite (by omega) (by omega) ?_⟩
          rw [Int.cast_natCast, Magnitude.value]
          rfl
      | true =>
          refine ⟨-magnitude.units, _, rfl, rfl, .finite (by omega) (by omega) ?_⟩
          rw [Int.cast_neg, Int.cast_natCast, neg_div, Magnitude.value]
          rfl

variable {x y : Binary64}

/-- One number is at most another one if both are on the line and it is so there. -/
theorem le_iff : x.le y = true ↔ ∃ value ∈ x.value?, ∃ value' ∈ y.value?, value ≤ value' := by
  unfold le
  rcases eq_nan_or_standsFor x with ⟨hplace, hvalue⟩ | ⟨place, value, hplace, hvalue, hstands⟩
  · simp [hplace, hvalue]
  rcases eq_nan_or_standsFor y with ⟨hplace', hvalue'⟩ | ⟨place', value', hplace', hvalue', hstands'⟩
  · simp [hplace', hvalue']
  simp [hplace, hplace', hvalue, hvalue', hstands.le_iff hstands']

/-- Two numbers are the same if they are one number on the line. -/
theorem same_iff : x.same y = true ↔ ∃ value ∈ x.value?, value ∈ y.value? := by
  unfold same
  rcases eq_nan_or_standsFor x with ⟨hplace, hvalue⟩ | ⟨place, value, hplace, hvalue, hstands⟩
  · simp [hplace, hvalue]
  rcases eq_nan_or_standsFor y with ⟨hplace', hvalue'⟩ | ⟨place', value', hplace', hvalue', hstands'⟩
  · simp [hplace', hvalue']
  have hsame : place = place' ↔ value = value' := by
    rw [le_antisymm_iff, hstands.le_iff hstands', hstands'.le_iff hstands, ← le_antisymm_iff]
  simp [hplace, hplace', hvalue, hvalue', hsame, eq_comm]

/-- A number is within a range if all three are on the line and it is so there. -/
theorem within_iff {number first last : Binary64} :
    number.Within first last ↔
      ∃ value ∈ number.value?, ∃ low ∈ first.value?, ∃ high ∈ last.value?,
        low ≤ value ∧ value ≤ high := by
  rw [← History.within_iff, Bool.and_eq_true, le_iff, le_iff]
  constructor
  · rintro ⟨⟨low, hlow, value, hvalue, hle⟩, value', hvalue', high, hhigh, hle'⟩
    cases Option.mem_unique hvalue hvalue'
    exact ⟨value, hvalue, low, hlow, high, hhigh, hle, hle'⟩
  · rintro ⟨value, hvalue, low, hlow, high, hhigh, hle, hle'⟩
    exact ⟨⟨low, hlow, value, hvalue, hle⟩, value, hvalue, high, hhigh, hle'⟩

end Number.Binary64

open Number

/-- The dictionary holds a number at the key, or an integer that is rounded to it. -/
theorem Dict.holdsNumber_iff {dict : Dict} {key : String} {number : Binary64} :
    dict.HoldsNumber key number ↔
      dict.Holds key (.real number) ∨
        ∃ value : Int, dict.Holds key (.integer value) ∧ Binary64.RoundsTo value number := by
  simp only [HoldsNumber, Binary64.roundsTo_iff]

end SolverLog
