/-!
# Binary64 numbers

The numbers of the format binary64, held exactly. The log reader only reads, compares and prints
them, so no arithmetic is defined.

* A finite number is a sign and a whole count of *units*; one unit is 2^-1074, the least positive
  number. Not every count is representable: counts of 53 bits or fewer are, a longer one only
  when all its bits after the first 53 are zero, and all lie below 2^2098 units, which is 2^1024.
* `Magnitude.ofRatio?` rounds a ratio to the nearest representable count, a tie to the even one.
* NaN is a single value. It is not on the line of numbers, so it is below nothing, above nothing
  and not the same as itself (`same_nan`), while the two zeros share a place.

Powers are written with `Nat.pow`, which means the same whatever else is imported.
-/

namespace SolverLog.Number

/-- The count of units in the number one. -/
def unitsPerOne : Nat := Nat.pow 2 1074

/-- The count of units from which on a number is too large to be finite. -/
def unitsLimit : Nat := Nat.pow 2 2098

theorem unitsLimit_pos : 0 < unitsLimit := by decide +kernel

/-- The distance, in units, between neighbouring numbers with the bit length of this count. -/
def spacing (units : Nat) : Nat :=
  Nat.pow 2 (units.log2 - 52)

/-- A count of units is representable if it is a multiple of the spacing at its size and not
too large. -/
def Representable (units : Nat) : Prop :=
  spacing units ∣ units ∧ units < unitsLimit

/-- A finite number without its sign. -/
structure Magnitude where
  /-- The count of units. -/
  units : Nat
  representable : Representable units
deriving DecidableEq

/-- A number of the format binary64, with a single NaN. -/
inductive Binary64 where
  | nan
  | infinite (negative : Bool)
  | finite (negative : Bool) (magnitude : Magnitude)
deriving DecidableEq

/-- The whole number nearest to a ratio; of two equally near, the even one. -/
def roundHalfEven (numerator denominator : Nat) : Nat :=
  let whole := numerator / denominator
  let twice := 2 * (numerator % denominator)
  if twice < denominator then whole
  else if denominator < twice then whole + 1
  else whole + whole % 2

theorem roundHalfEven_le (numerator denominator : Nat) :
    roundHalfEven numerator denominator ≤ numerator / denominator + 1 := by
  unfold roundHalfEven
  dsimp only
  split
  · omega
  · split <;> omega

/-- A count has at most 53 bits in multiples of its spacing. -/
theorem div_spacing_lt (units : Nat) : units / spacing units < Nat.pow 2 53 := by
  refine Nat.div_lt_of_lt_mul ?_
  rw [spacing, Nat.pow_eq, Nat.pow_eq, ← Nat.pow_add]
  exact Nat.lt_of_lt_of_le Nat.lt_log2_self (Nat.pow_le_pow_right (by decide) (by omega))

/-- A multiple of a power of two is representable when its factor has at most 53 bits, or is the
least number of 54 bits. -/
theorem spacing_dvd {factor exponent : Nat} (h : factor ≤ Nat.pow 2 53) :
    spacing (factor * Nat.pow 2 exponent) ∣ factor * Nat.pow 2 exponent := by
  simp only [Nat.pow_eq] at h ⊢
  rcases Nat.eq_zero_or_pos factor with rfl | hpos
  · simp
  have hne : factor * 2 ^ exponent ≠ 0 :=
    Nat.mul_ne_zero (Nat.ne_of_gt hpos) (Nat.ne_of_gt (Nat.two_pow_pos exponent))
  rcases Nat.lt_or_eq_of_le h with hlt | rfl
  · have hsize : factor * 2 ^ exponent < 2 ^ (53 + exponent) := by
      rw [Nat.pow_add]
      exact Nat.mul_lt_mul_of_pos_right hlt (Nat.two_pow_pos exponent)
    have hlog := (Nat.log2_lt hne).2 hsize
    exact Nat.dvd_mul_left_of_dvd (Nat.pow_dvd_pow 2 (by omega)) factor
  · rw [← Nat.pow_add, spacing, Nat.log2_two_pow, Nat.pow_eq]
    exact Nat.pow_dvd_pow 2 (by omega)

namespace Magnitude

/-- The zero magnitude. -/
def zero : Magnitude where
  units := 0
  representable := ⟨Nat.dvd_zero _, unitsLimit_pos⟩

/-- The spacing of the numbers around a ratio of units. -/
def spacingAt (numerator denominator : Nat) : Nat :=
  spacing (numerator / denominator)

/-- The ratio of units rounded to a multiple of the spacing around it. -/
def roundedUnits (numerator denominator : Nat) : Nat :=
  roundHalfEven numerator (denominator * spacingAt numerator denominator) *
    spacingAt numerator denominator

/-- In multiples of the spacing around it, a ratio is rounded to at most 53 bits, or to the least
number of 54 bits. -/
theorem roundHalfEven_spacingAt_le (numerator denominator : Nat) :
    roundHalfEven numerator (denominator * spacingAt numerator denominator) ≤ Nat.pow 2 53 := by
  refine Nat.le_trans (roundHalfEven_le _ _) ?_
  rw [← Nat.div_div_eq_div_mul]
  exact Nat.succ_le_of_lt (div_spacing_lt _)

theorem spacing_dvd_roundedUnits (numerator denominator : Nat) :
    spacing (roundedUnits numerator denominator) ∣ roundedUnits numerator denominator :=
  spacing_dvd (roundHalfEven_spacingAt_le numerator denominator)

/-- The magnitude nearest to a ratio, ties to even; none if that is too large to be finite. -/
def ofRatio? (numerator denominator : Nat) : Option Magnitude :=
  let units := roundedUnits (numerator * unitsPerOne) denominator
  if h : units < unitsLimit then
    some ⟨units, spacing_dvd_roundedUnits _ _, h⟩
  else
    none

/-- The magnitude nearest to `digits * 10 ^ exponent`, ties to even; none if that is too large to
be finite. Exponents far out of range are settled first: 10^400 is too large to be finite, and
`digits` is below `10 ^ (digits.log2 + 1)`, so the third test finds a number so small that zero is
the nearest. -/
def ofDecimal? (digits : Nat) (exponent : Int) : Option Magnitude :=
  if digits = 0 then some zero
  else if 400 < exponent then none
  else if exponent < -(digits.log2 + 400 : Nat) then some zero
  else if 0 ≤ exponent then ofRatio? (digits * Nat.pow 10 exponent.toNat) 1
  else ofRatio? digits (Nat.pow 10 (-exponent).toNat)

end Magnitude

namespace Binary64

/-- The number of that sign and magnitude; a magnitude too large to be finite is infinite. -/
def ofSigned (negative : Bool) : Option Magnitude → Binary64
  | some magnitude => finite negative magnitude
  | none => infinite negative

/-- The number nearest to an integer. -/
def ofInteger (value : Int) : Binary64 :=
  ofSigned (value < 0) (Magnitude.ofRatio? value.natAbs 1)

/-- The place of a number on the line, in units, an infinity standing at the limit of the finite
numbers. NaN has none. -/
def place? : Binary64 → Option Int
  | nan => none
  | infinite negative => some (if negative then -unitsLimit else unitsLimit)
  | finite negative magnitude => some (if negative then -magnitude.units else magnitude.units)

/-- At most: both numbers have a place, and the first is not beyond the second. -/
def le (x y : Binary64) : Bool :=
  match x.place?, y.place? with
  | some a, some b => a ≤ b
  | _, _ => false

/-- Numerically the same: both numbers have a place, and it is one place. -/
def same (x y : Binary64) : Bool :=
  match x.place?, y.place? with
  | some a, some b => a = b
  | _, _ => false

theorem same_nan (x : Binary64) : same nan x = false := rfl

end Binary64

end SolverLog.Number
