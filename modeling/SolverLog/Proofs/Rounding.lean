import Mathlib.Data.Nat.Prime.Basic
import Mathlib.Tactic.Ring
import SolverLog.Number.Shortest

/-!
# Rounding decimal numbers

A decimal number is rounded by its value: zeros at the end of its digits make no difference
(`Magnitude.ofDecimal?_mul_pow`), and the exact decimal value of a magnitude is rounded to that
magnitude (`Magnitude.ofDecimal?_exact`).

The exponents that are settled before rounding are settled as rounding would do
(`Magnitude.ofDecimal?_eq`), so both facts are about a ratio only.
-/

namespace SolverLog.Number

/-! ## Ratios -/

/-- A ratio in other terms is rounded to the same number. -/
theorem roundHalfEven_mul (numerator denominator : Nat) {factor : Nat} (h : 0 < factor) :
    roundHalfEven (numerator * factor) (denominator * factor) =
      roundHalfEven numerator denominator := by
  have hwhole : numerator * factor / (denominator * factor) = numerator / denominator :=
    Nat.mul_div_mul_right numerator denominator h
  have htwice : 2 * (numerator * factor % (denominator * factor)) =
      2 * (numerator % denominator) * factor := by
    rw [Nat.mul_mod_mul_right, Nat.mul_assoc]
  unfold roundHalfEven
  simp only [hwhole, htwice, Nat.mul_lt_mul_right h]

theorem roundHalfEven_of_dvd {numerator denominator : Nat} (hpos : 0 < denominator)
    (h : denominator ∣ numerator) :
    roundHalfEven numerator denominator = numerator / denominator := by
  unfold roundHalfEven
  rw [Nat.mod_eq_zero_of_dvd h]
  simp [hpos]

theorem div_le_roundHalfEven (numerator denominator : Nat) :
    numerator / denominator ≤ roundHalfEven numerator denominator := by
  unfold roundHalfEven
  dsimp only
  split
  · exact Nat.le_refl _
  · split <;> omega

theorem spacing_pos (units : Nat) : 0 < spacing units :=
  Nat.two_pow_pos _

/-- The spacing is at most half of a number above one. -/
theorem two_mul_spacing_le {units : Nat} (h : 2 ≤ units) : 2 * spacing units ≤ units := by
  have hlog : 1 ≤ units.log2 := (Nat.le_log2 (by omega)).mpr h
  calc 2 * spacing units = 2 ^ (units.log2 - 52 + 1) := by
        rw [Nat.pow_succ, Nat.mul_comm]
        rfl
    _ ≤ 2 ^ units.log2 := Nat.pow_le_pow_right (by decide) (by omega)
    _ ≤ units := Nat.log2_self_le (by omega)

namespace Magnitude

theorem roundedUnits_mul (numerator denominator : Nat) {factor : Nat} (h : 0 < factor) :
    roundedUnits (numerator * factor) (denominator * factor) =
      roundedUnits numerator denominator := by
  have hspacing : spacingAt (numerator * factor) (denominator * factor) =
      spacingAt numerator denominator := by
    unfold spacingAt
    rw [Nat.mul_div_mul_right numerator denominator h]
  unfold roundedUnits
  rw [hspacing, Nat.mul_right_comm, roundHalfEven_mul _ _ h]

/-- A ratio in other terms has the same nearest magnitude. -/
theorem ofRatio?_mul (numerator denominator : Nat) {factor : Nat} (h : 0 < factor) :
    ofRatio? (numerator * factor) (denominator * factor) = ofRatio? numerator denominator := by
  unfold ofRatio?
  simp only [Nat.mul_right_comm numerator factor unitsPerOne, roundedUnits_mul _ _ h]

/-- A representable number of units is rounded to itself. -/
theorem roundedUnits_of_representable {units : Nat} (h : spacing units ∣ units) :
    roundedUnits units 1 = units := by
  unfold roundedUnits spacingAt
  rw [Nat.div_one, Nat.one_mul, roundHalfEven_of_dvd (spacing_pos units) h, Nat.div_mul_cancel h]

/-- A magnitude is the nearest one to a ratio that it is. -/
theorem ofRatio?_eq_some (magnitude : Magnitude) {numerator denominator : Nat}
    (hpos : 0 < denominator) (h : numerator * unitsPerOne = magnitude.units * denominator) :
    ofRatio? numerator denominator = some magnitude := by
  have hunits : roundedUnits (numerator * unitsPerOne) denominator = magnitude.units := by
    have hmul := roundedUnits_mul magnitude.units 1 hpos
    rw [Nat.one_mul] at hmul
    rw [h, hmul, roundedUnits_of_representable magnitude.representable.1]
  unfold ofRatio?
  simp only [hunits, magnitude.representable.2, dif_pos]

theorem ofRatio?_zero (denominator : Nat) : ofRatio? 0 denominator = some zero := by
  have hunits : roundedUnits (0 * unitsPerOne) denominator = 0 := by
    unfold roundedUnits roundHalfEven
    simp
  unfold ofRatio?
  simp only [hunits, unitsLimit_pos, dif_pos]
  rfl

/-! ## Exponents that are far out of range -/

theorem unitsPerOne_eq : unitsPerOne = 2 ^ 1074 := by
  rw [unitsPerOne, Nat.pow_eq]

theorem unitsPerOne_pos : 0 < unitsPerOne := by decide +kernel

theorem two_mul_unitsLimit_le : 2 * unitsLimit ≤ Nat.pow 10 401 * unitsPerOne := by decide +kernel

/-- Rounding a number to a multiple of the spacing takes off at most half of it. -/
theorem le_roundedUnits {limit units : Nat} (hpos : 0 < limit) (h : 2 * limit ≤ units) :
    limit ≤ roundedUnits units 1 := by
  have hspacing : 2 * spacing units ≤ units := two_mul_spacing_le (by omega)
  have hrest := Nat.mod_lt units (spacing_pos units)
  have hsplit := Nat.div_add_mod' units (spacing units)
  have hround := Nat.mul_le_mul_right (spacing units) (div_le_roundHalfEven units (spacing units))
  unfold roundedUnits spacingAt
  rw [Nat.div_one, Nat.one_mul]
  omega

/-- A whole number that is at least twice the limit of the finite numbers is too large. -/
theorem ofRatio?_eq_none {number : Nat} (h : 2 * unitsLimit ≤ number * unitsPerOne) :
    ofRatio? number 1 = none := by
  have hlarge : unitsLimit ≤ roundedUnits (number * unitsPerOne) 1 :=
    le_roundedUnits unitsLimit_pos h
  unfold ofRatio?
  simp only [dif_neg (Nat.not_lt.mpr hlarge)]

/-- A ratio of less than half a unit has zero as its nearest magnitude. -/
theorem ofRatio?_eq_zero {numerator denominator : Nat}
    (h : 2 * (numerator * unitsPerOne) < denominator) :
    ofRatio? numerator denominator = some zero := by
  have hwhole : numerator * unitsPerOne / denominator = 0 := Nat.div_eq_of_lt (by omega)
  have hrest : numerator * unitsPerOne % denominator = numerator * unitsPerOne :=
    Nat.mod_eq_of_lt (by omega)
  have hspacing : spacing 0 = 1 := by decide
  have hunits : roundedUnits (numerator * unitsPerOne) denominator = 0 := by
    unfold roundedUnits spacingAt roundHalfEven
    simp only [hwhole, hspacing, Nat.mul_one, hrest, if_pos h]
  unfold ofRatio?
  simp only [hunits, unitsLimit_pos, dif_pos]
  rfl

/-- The magnitude nearest to a decimal number, whatever its exponent is. -/
def nearest? (digits : Nat) (exponent : Int) : Option Magnitude :=
  if 0 ≤ exponent then ofRatio? (digits * Nat.pow 10 exponent.toNat) 1
  else ofRatio? digits (Nat.pow 10 (-exponent).toNat)

theorem nearest?_zero (exponent : Int) : nearest? 0 exponent = some zero := by
  unfold nearest?
  split
  · rw [Nat.zero_mul, ofRatio?_zero]
  · rw [ofRatio?_zero]

/-- An exponent above 400 makes a number too large. -/
theorem nearest?_eq_none {digits : Nat} (hdigits : digits ≠ 0) {exponent : Int}
    (h : 400 < exponent) : nearest? digits exponent = none := by
  unfold nearest?
  rw [if_pos (by omega)]
  apply ofRatio?_eq_none
  refine Nat.le_trans two_mul_unitsLimit_le (Nat.mul_le_mul_right unitsPerOne ?_)
  refine Nat.le_trans ?_ (Nat.le_mul_of_pos_left _ (Nat.pos_of_ne_zero hdigits))
  exact Nat.pow_le_pow_right (by decide) (by omega)

/-- An exponent that is far below zero makes a number too small. -/
theorem nearest?_eq_zero {digits : Nat} {exponent : Int}
    (h : exponent < -(digits.log2 + 400 : Nat)) : nearest? digits exponent = some zero := by
  unfold nearest?
  rw [if_neg (by omega)]
  apply ofRatio?_eq_zero
  generalize hplaces : (-exponent).toNat = places
  have hplaces : digits.log2 + 401 ≤ places := by omega
  calc 2 * (digits * unitsPerOne) < 2 * (2 ^ (digits.log2 + 1) * unitsPerOne) := by
        apply Nat.mul_lt_mul_of_pos_left _ (by decide)
        exact Nat.mul_lt_mul_of_pos_right Nat.lt_log2_self unitsPerOne_pos
    _ = 2 ^ (digits.log2 + 1076) := by
        rw [unitsPerOne_eq, ← Nat.pow_add, ← Nat.pow_succ']
    _ ≤ 2 ^ (3 * places) := Nat.pow_le_pow_right (by decide) (by omega)
    _ = 8 ^ places := Nat.pow_mul 2 3 places
    _ ≤ Nat.pow 10 places := Nat.pow_le_pow_left (by decide) places

/-- The exponents that are settled first are settled as rounding settles them. -/
theorem ofDecimal?_eq (digits : Nat) (exponent : Int) :
    ofDecimal? digits exponent = nearest? digits exponent := by
  unfold ofDecimal?
  by_cases hdigits : digits = 0
  · rw [if_pos hdigits, hdigits, nearest?_zero]
  rw [if_neg hdigits]
  by_cases hlarge : 400 < exponent
  · rw [if_pos hlarge, nearest?_eq_none hdigits hlarge]
  rw [if_neg hlarge]
  by_cases hsmall : exponent < -(digits.log2 + 400 : Nat)
  · rw [if_pos hsmall, nearest?_eq_zero hsmall]
  rw [if_neg hsmall, nearest?]

/-! ## Decimal numbers of one value -/

/-- A zero at the end of the digits counts as one more in the exponent. -/
theorem nearest?_mul_ten (digits : Nat) (exponent : Int) :
    nearest? (digits * 10) exponent = nearest? digits (exponent + 1) := by
  unfold nearest?
  by_cases hexponent : 0 ≤ exponent
  · obtain ⟨size, rfl⟩ := Int.eq_ofNat_of_zero_le hexponent
    have hnext : (0 : Int) ≤ size + 1 := by omega
    have hsize : ((size : Int) + 1).toNat = size + 1 := by omega
    rw [if_pos hexponent, if_pos hnext, hsize, Int.toNat_natCast, Nat.mul_assoc]
    congr 2
    exact (Nat.pow_succ' (n := size) (m := 10)).symm
  by_cases hlast : exponent = -1
  · subst hlast
    have hten : Nat.pow 10 (- -1 : Int).toNat = 1 * 10 := by decide
    have hone : Nat.pow 10 (-1 + 1 : Int).toNat = 1 := by decide
    rw [if_neg (by decide), if_pos (by decide), hten, hone, Nat.mul_one]
    exact ofRatio?_mul digits 1 (by decide)
  · obtain ⟨places, hplaces⟩ : ∃ places : Nat, exponent = -((places : Int) + 1) :=
      ⟨(-exponent - 1).toNat, by omega⟩
    have hnext : ¬0 ≤ exponent + 1 := by omega
    have hsize : (-exponent).toNat = places + 1 := by omega
    have hsize' : (-(exponent + 1)).toNat = places := by omega
    rw [if_neg hexponent, if_neg hnext, hsize, hsize']
    exact ofRatio?_mul digits (Nat.pow 10 places) (by decide)

/-- Zeros at the end of the digits count in the exponent. -/
theorem ofDecimal?_mul_pow (digits count : Nat) (exponent : Int) :
    ofDecimal? (digits * 10 ^ count) exponent = ofDecimal? digits (exponent + count) := by
  simp only [ofDecimal?_eq]
  induction count generalizing exponent with
  | zero => simp
  | succ count ih =>
      rw [Nat.pow_succ, ← Nat.mul_assoc, nearest?_mul_ten, ih]
      congr 1
      omega

/-! ## The exact value of a magnitude -/

/-- The exact decimal value of a magnitude is its ratio of units. -/
theorem exact_ratio (magnitude : Magnitude) :
    ∃ places : Nat, magnitude.exact.exponent = -(places : Int) ∧
      magnitude.exact.digits * unitsPerOne = magnitude.units * 10 ^ places := by
  -- What the units share with the denominator is a power of two.
  have hdvd : Nat.gcd magnitude.units unitsPerOne ∣ 2 ^ 1074 := by
    rw [← unitsPerOne_eq]
    exact Nat.gcd_dvd_right magnitude.units unitsPerOne
  obtain ⟨shared, hshared, hcommon⟩ := (Nat.dvd_prime_pow Nat.prime_two).mp hdvd
  have hunits := Nat.div_mul_cancel (Nat.gcd_dvd_left magnitude.units unitsPerOne)
  rw [hcommon] at hunits
  obtain ⟨places, hplaces⟩ : ∃ places, 1074 = places + shared := ⟨1074 - shared, by omega⟩
  have hexact : unitPlaces - (2 ^ shared).log2 = places := by
    rw [Nat.log2_two_pow]
    unfold unitPlaces
    omega
  refine ⟨places, ?_, ?_⟩
  · unfold exact
    simp only [hcommon, hexact]
  · unfold exact
    simp only [hcommon, hexact, Nat.pow_eq]
    rw [unitsPerOne_eq, hplaces, Nat.pow_add]
    generalize magnitude.units / 2 ^ shared = factor at hunits
    rw [← hunits, show (10 : Nat) = 2 * 5 from rfl, Nat.mul_pow]
    ring

/-- The exact decimal value of a magnitude is rounded to that magnitude. -/
theorem ofDecimal?_exact (magnitude : Magnitude) :
    ofDecimal? magnitude.exact.digits magnitude.exact.exponent = some magnitude := by
  obtain ⟨places, hexponent, hratio⟩ := magnitude.exact_ratio
  rw [ofDecimal?_eq, hexponent]
  unfold nearest?
  rcases Nat.eq_zero_or_pos places with rfl | hpos
  · have hone : Nat.pow 10 (-((0 : Nat) : Int)).toNat = 1 := by decide
    rw [if_pos (by decide), hone, Nat.mul_one]
    exact ofRatio?_eq_some magnitude Nat.one_pos hratio
  · rw [if_neg (by omega), Int.neg_neg, Int.toNat_natCast]
    exact ofRatio?_eq_some magnitude (Nat.pow_pos (by decide)) hratio

end Magnitude

end SolverLog.Number
