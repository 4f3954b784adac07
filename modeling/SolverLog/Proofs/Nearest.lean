import Mathlib.Algebra.Order.Field.Basic
import Mathlib.Data.Nat.Dist
import Mathlib.Data.Rat.Cast.Order
import Mathlib.Tactic.FieldSimp
import Mathlib.Tactic.Linarith
import SolverLog.Proofs.Rounding

/-!
# The nearest number

A rational number that is not negative is rounded to the magnitude that is nearest to it. Of two
equally near ones it is the one whose last bit is zero, and from the middle between the greatest
magnitude and the next power of two on a number is too large (`Magnitude.Rounds`). No two magnitudes
can be meant by that (`Magnitude.Rounds.unique`), and it is what becomes of a ratio
(`Magnitude.rounds_ofRatio?`), of a decimal number (`Magnitude.rounds_ofDecimal?`) and of an integer
(`Binary64.roundsTo_iff`).

A ratio is rounded to a multiple of the spacing around it. From the last multiple below the ratio on, all
representable counts are such multiples (`spacing_dvd_of_le`), so none of them is nearer than the one
that is chosen (`Magnitude.dist_roundedUnits_le`).
-/

namespace SolverLog.Number

/-! ## The nearest multiple -/

/-- What is rounded is at most half of the denominator away, and just half only from an even number. -/
theorem roundHalfEven_half (numerator : Nat) {denominator : Nat} (hpos : 0 < denominator) :
    2 * Nat.dist (roundHalfEven numerator denominator * denominator) numerator ≤ denominator ∧
      (2 * Nat.dist (roundHalfEven numerator denominator * denominator) numerator = denominator →
        Even (roundHalfEven numerator denominator)) := by
  have hsplit := Nat.div_add_mod' numerator denominator
  have hrest := Nat.mod_lt numerator hpos
  have hnext : (numerator / denominator + 1) * denominator =
      numerator / denominator * denominator + denominator := Nat.succ_mul _ _
  unfold roundHalfEven Nat.dist
  dsimp only
  split
  · exact ⟨by omega, by omega⟩
  · split
    · exact ⟨by omega, by omega⟩
    · -- In the middle, an odd number goes up to the even one behind it.
      rcases Nat.mod_two_eq_zero_or_one (numerator / denominator) with heven | hodd
      · rw [heven, Nat.add_zero]
        exact ⟨by omega, fun _ => Nat.even_iff.mpr heven⟩
      · rw [hodd]
        refine ⟨by omega, fun _ => ?_⟩
        rw [Nat.even_iff]
        omega

/-- Two multiples of a denominator are at least that far from each other. -/
theorem le_dist_add_dist {first second : Nat} (h : first ≠ second) (numerator denominator : Nat) :
    denominator ≤ Nat.dist (first * denominator) numerator +
      Nat.dist (second * denominator) numerator := by
  have htriangle := Nat.dist.triangle_inequality (first * denominator) numerator
    (second * denominator)
  rw [Nat.dist_mul_right, Nat.dist_comm numerator] at htriangle
  have hapart : 1 * denominator ≤ Nat.dist first second * denominator :=
    Nat.mul_le_mul_right denominator (Nat.dist_pos_of_ne h)
  omega

/-- No multiple is nearer than the one that is chosen. -/
theorem dist_roundHalfEven_le (numerator : Nat) {denominator : Nat} (hpos : 0 < denominator)
    (factor : Nat) :
    Nat.dist (roundHalfEven numerator denominator * denominator) numerator ≤
      Nat.dist (factor * denominator) numerator := by
  have hhalf := (roundHalfEven_half numerator hpos).1
  by_cases hne : roundHalfEven numerator denominator = factor
  · rw [hne]
  · have hfar := le_dist_add_dist hne numerator denominator
    omega

/-- If another multiple is as near, the one that is chosen is even. -/
theorem even_roundHalfEven {numerator denominator factor : Nat} (hpos : 0 < denominator)
    (hne : roundHalfEven numerator denominator ≠ factor)
    (h : Nat.dist (roundHalfEven numerator denominator * denominator) numerator =
      Nat.dist (factor * denominator) numerator) : Even (roundHalfEven numerator denominator) := by
  obtain ⟨hhalf, heven⟩ := roundHalfEven_half numerator hpos
  have hfar := le_dist_add_dist hne numerator denominator
  exact heven (by omega)

/-! ## The grid of representable counts -/

theorem log2_le_log2 {units others : Nat} (h : units ≤ others) : units.log2 ≤ others.log2 := by
  rcases Nat.eq_zero_or_pos units with rfl | hpos
  · exact Nat.zero_le _
  · exact (Nat.le_log2 (by omega)).mpr (Nat.le_trans (Nat.log2_self_le hpos.ne') h)

theorem spacing_dvd_spacing {units others : Nat} (h : units.log2 ≤ others.log2) :
    spacing units ∣ spacing others :=
  Nat.pow_dvd_pow 2 (Nat.sub_le_sub_right h 52)

/-- A representable count is a multiple of the spacing at another count, unless it lies below the last
multiple that is not beyond that one. -/
theorem spacing_dvd_of_le {units whole : Nat} (hunits : spacing units ∣ units)
    (h : whole / spacing whole * spacing whole ≤ units) : spacing whole ∣ units := by
  rcases Nat.le_total whole.log2 52 with hsmall | hlarge
  · have hone : spacing whole = 1 := by
      rw [spacing, Nat.sub_eq_zero_of_le hsmall, Nat.pow_eq, Nat.pow_zero]
    exact hone ▸ Nat.one_dvd units
  -- The power of two at the size of the count is one of the multiples.
  have hwhole : whole ≠ 0 := by
    rintro rfl
    exact absurd hlarge (by decide)
  have hpower : spacing whole ∣ 2 ^ whole.log2 := Nat.pow_dvd_pow 2 (Nat.sub_le _ _)
  have hle : 2 ^ whole.log2 ≤ units :=
    calc 2 ^ whole.log2 = 2 ^ whole.log2 / spacing whole * spacing whole :=
          (Nat.div_mul_cancel hpower).symm
      _ ≤ whole / spacing whole * spacing whole :=
          Nat.mul_le_mul_right _ (Nat.div_le_div_right (Nat.log2_self_le hwhole))
      _ ≤ units := h
  have hlog : whole.log2 ≤ units.log2 := by
    refine (Nat.le_log2 ?_).mpr hle
    have hpos := Nat.two_pow_pos whole.log2
    omega
  exact Nat.dvd_trans (spacing_dvd_spacing hlog) hunits

/-- An even multiple of a power of two ends in a zero bit, when its factor has at most 53 bits or is
the least number of 54 bits. -/
theorem two_mul_spacing_dvd {factor exponent : Nat} (heven : Even factor)
    (h : factor ≤ Nat.pow 2 53) :
    2 * spacing (factor * Nat.pow 2 exponent) ∣ factor * Nat.pow 2 exponent := by
  obtain ⟨half, rfl⟩ := heven
  have hproduct : (half + half) * Nat.pow 2 exponent = half * Nat.pow 2 (exponent + 1) := by
    simp only [Nat.pow_eq, Nat.pow_succ]
    ring
  have hhalf : half ≤ Nat.pow 2 52 := by
    have hdouble : Nat.pow 2 53 = Nat.pow 2 52 + Nat.pow 2 52 := by decide
    omega
  rw [hproduct]
  simp only [spacing, Nat.pow_eq] at hhalf ⊢
  rw [← Nat.pow_succ']
  rcases Nat.eq_zero_or_pos half with rfl | hpos
  · simp
  rcases Nat.lt_or_eq_of_le hhalf with hlt | rfl
  · have hne : half * 2 ^ (exponent + 1) ≠ 0 :=
      Nat.mul_ne_zero (Nat.ne_of_gt hpos) (Nat.ne_of_gt (Nat.two_pow_pos _))
    have hsize : half * 2 ^ (exponent + 1) < 2 ^ (53 + exponent) := by
      have hexponent : 53 + exponent = 52 + (exponent + 1) := by omega
      rw [hexponent, Nat.pow_add 2 52]
      exact Nat.mul_lt_mul_of_pos_right hlt (Nat.two_pow_pos _)
    have hlog := (Nat.log2_lt hne).2 hsize
    exact Nat.dvd_mul_left_of_dvd (Nat.pow_dvd_pow 2 (by omega)) half
  · rw [← Nat.pow_add, Nat.log2_two_pow]
    exact Nat.pow_dvd_pow 2 (by omega)

namespace Magnitude

variable {numerator denominator units : Nat}

theorem roundedUnits_mul_denominator (numerator denominator : Nat) :
    roundedUnits numerator denominator * denominator =
      roundHalfEven numerator (denominator * spacingAt numerator denominator) *
        (denominator * spacingAt numerator denominator) := by
  unfold roundedUnits
  ring

/-- A representable count is a multiple of the spacing around a ratio, or it is farther from the ratio
than one of these multiples. -/
theorem dvd_or_dist_lt (numerator : Nat) (hpos : 0 < denominator) (hunits : spacing units ∣ units) :
    (∃ factor, units * denominator = factor * (denominator * spacingAt numerator denominator) ∧
        units = factor * spacingAt numerator denominator) ∨
      ∃ factor, Nat.dist (factor * (denominator * spacingAt numerator denominator)) numerator <
        Nat.dist (units * denominator) numerator := by
  by_cases hbelow : units <
      numerator / denominator / spacingAt numerator denominator * spacingAt numerator denominator
  · right
    refine ⟨numerator / denominator / spacingAt numerator denominator, ?_⟩
    have hfactor : numerator / denominator / spacingAt numerator denominator *
        (denominator * spacingAt numerator denominator) ≤ numerator := by
      rw [Nat.div_div_eq_div_mul]
      exact Nat.div_mul_le_self _ _
    have hmul := Nat.mul_lt_mul_of_pos_right hbelow hpos
    rw [Nat.mul_assoc, Nat.mul_comm (spacingAt numerator denominator)] at hmul
    unfold Nat.dist
    omega
  · left
    obtain ⟨factor, rfl⟩ := spacing_dvd_of_le hunits (Nat.le_of_not_lt hbelow)
    refine ⟨factor, ?_, Nat.mul_comm _ _⟩
    unfold spacingAt
    ring

/-- No representable count is nearer to a ratio than the one that it is rounded to. -/
theorem dist_roundedUnits_le (numerator : Nat) (hpos : 0 < denominator)
    (hunits : spacing units ∣ units) :
    Nat.dist (roundedUnits numerator denominator * denominator) numerator ≤
      Nat.dist (units * denominator) numerator := by
  have hspacing : 0 < denominator * spacingAt numerator denominator :=
    Nat.mul_pos hpos (spacing_pos _)
  rw [roundedUnits_mul_denominator]
  rcases dvd_or_dist_lt numerator hpos hunits with ⟨factor, hfactor, -⟩ | ⟨factor, hfar⟩
  · rw [hfactor]
    exact dist_roundHalfEven_le numerator hspacing factor
  · exact Nat.le_trans (dist_roundHalfEven_le numerator hspacing factor) (Nat.le_of_lt hfar)

/-- If another representable count is as near, the one that a ratio is rounded to ends in a zero bit. -/
theorem two_mul_spacing_dvd_roundedUnits (hpos : 0 < denominator) (hunits : spacing units ∣ units)
    (hne : roundedUnits numerator denominator ≠ units)
    (h : Nat.dist (roundedUnits numerator denominator * denominator) numerator =
      Nat.dist (units * denominator) numerator) :
    2 * spacing (roundedUnits numerator denominator) ∣ roundedUnits numerator denominator := by
  have hspacing : 0 < denominator * spacingAt numerator denominator :=
    Nat.mul_pos hpos (spacing_pos _)
  rw [roundedUnits_mul_denominator] at h
  have heven : Even (roundHalfEven numerator (denominator * spacingAt numerator denominator)) := by
    rcases dvd_or_dist_lt numerator hpos hunits with ⟨factor, hfactor, rfl⟩ | ⟨factor, hfar⟩
    · rw [hfactor] at h
      refine even_roundHalfEven hspacing ?_ h
      rintro rfl
      exact hne rfl
    · have hnear := dist_roundHalfEven_le numerator hspacing factor
      omega
  exact two_mul_spacing_dvd heven (roundHalfEven_spacingAt_le numerator denominator)

/-! ## Ratios that are too large -/

/-- The greatest finite count. -/
def greatestUnits : Nat :=
  unitsLimit - Nat.pow 2 2045

theorem spacing_dvd_greatestUnits : spacing greatestUnits ∣ greatestUnits := by decide +kernel

theorem spacing_dvd_unitsLimit : spacing unitsLimit ∣ unitsLimit := by decide +kernel

/-- The limit comes after the greatest finite count. -/
theorem unitsLimit_eq : unitsLimit = greatestUnits + spacing greatestUnits := by decide +kernel

/-- The greatest finite count ends in a one bit. -/
theorem not_two_mul_spacing_dvd_greatestUnits : ¬2 * spacing greatestUnits ∣ greatestUnits := by
  decide +kernel

/-- A count is finite if it is at most the greatest one. -/
theorem le_greatestUnits (hunits : spacing units ∣ units) (h : units < unitsLimit) :
    units ≤ greatestUnits := by
  by_contra hbeyond
  have hself := Nat.div_mul_cancel spacing_dvd_greatestUnits
  have hdvd : spacing greatestUnits ∣ units := spacing_dvd_of_le hunits (by omega)
  have hlimit : spacing greatestUnits ∣ unitsLimit := by
    rw [unitsLimit_eq]
    exact Nat.dvd_add spacing_dvd_greatestUnits (Nat.dvd_refl _)
  have hgap := Nat.le_of_dvd (Nat.sub_pos_of_lt h) (Nat.dvd_sub hlimit hdvd)
  have hnext := unitsLimit_eq
  omega

theorem greatestUnits_lt : greatestUnits < unitsLimit := by
  rw [unitsLimit_eq]
  exact Nat.lt_add_of_pos_right (spacing_pos greatestUnits)

/-- A ratio is too large from the middle between the greatest finite count and the limit on. -/
theorem unitsLimit_le_roundedUnits_iff (hpos : 0 < denominator) :
    unitsLimit ≤ roundedUnits numerator denominator ↔
      (greatestUnits + unitsLimit) * denominator ≤ 2 * numerator := by
  have hgreatest := Nat.mul_lt_mul_of_pos_right greatestUnits_lt hpos
  rw [Nat.add_mul]
  constructor
  · intro hlarge
    by_contra hbelow
    have hmul := Nat.mul_le_mul_right denominator hlarge
    have hnear := dist_roundedUnits_le numerator hpos spacing_dvd_greatestUnits
    unfold Nat.dist at hnear
    omega
  · intro hbeyond
    by_contra hfinite
    have hle := le_greatestUnits (spacing_dvd_roundedUnits numerator denominator) (by omega)
    have hmul := Nat.mul_le_mul_right denominator hle
    have hnear := dist_roundedUnits_le numerator hpos spacing_dvd_unitsLimit
    -- So the ratio is just in the middle, and is rounded to the greatest finite count.
    unfold Nat.dist at hnear
    have hproduct : roundedUnits numerator denominator * denominator =
        greatestUnits * denominator := by omega
    have hequal : Nat.dist (roundedUnits numerator denominator * denominator) numerator =
        Nat.dist (unitsLimit * denominator) numerator := by
      unfold Nat.dist
      omega
    have heven := two_mul_spacing_dvd_roundedUnits hpos spacing_dvd_unitsLimit (by omega) hequal
    rw [Nat.eq_of_mul_eq_mul_right hpos hproduct] at heven
    exact not_two_mul_spacing_dvd_greatestUnits heven

/-! ## The nearest magnitude -/

/-- The number that a magnitude is. -/
def value (magnitude : Magnitude) : ℚ :=
  magnitude.units / 2 ^ 1074

/-- The magnitude is nearest to a number. If another one is as near, its last bit is zero. -/
structure IsNearest (magnitude : Magnitude) (number : ℚ) : Prop where
  le : ∀ other : Magnitude, |magnitude.value - number| ≤ |other.value - number|
  even : ∀ other : Magnitude, other ≠ magnitude →
    |magnitude.value - number| = |other.value - number| →
      2 * spacing magnitude.units ∣ magnitude.units

/-- The least number that is too large to be finite. It is in the middle between the greatest finite
number and the next power of two. -/
def overflow : ℚ :=
  2 ^ 1024 - 2 ^ 970

/-- What a number that is not negative is rounded to; none if it is too large to be finite. -/
inductive Rounds (number : ℚ) : Option Magnitude → Prop where
  | finite {magnitude : Magnitude} (hnumber : number < overflow) (h : magnitude.IsNearest number) :
      Rounds number (some magnitude)
  | tooLarge (hnumber : overflow ≤ number) : Rounds number none

theorem cast_unitsPerOne : (unitsPerOne : ℚ) = 2 ^ 1074 := by
  rw [unitsPerOne_eq, Nat.cast_pow, Nat.cast_ofNat]

theorem cast_dist (first second : Nat) : (Nat.dist first second : ℚ) = |(first : ℚ) - second| := by
  rcases Nat.le_total first second with h | h
  · rw [Nat.dist_eq_sub_of_le h, Nat.cast_sub h, abs_sub_comm, abs_of_nonneg]
    exact sub_nonneg.mpr (Nat.cast_le.mpr h)
  · rw [Nat.dist_eq_sub_of_le_right h, Nat.cast_sub h, abs_of_nonneg]
    exact sub_nonneg.mpr (Nat.cast_le.mpr h)

/-- The distance of a magnitude from a ratio, in units. -/
theorem abs_value_sub (magnitude : Magnitude) (numerator : Nat) (hpos : 0 < denominator) :
    |magnitude.value - numerator / denominator| =
      Nat.dist (magnitude.units * denominator) (numerator * unitsPerOne) /
        (denominator * unitsPerOne) := by
  have hdenominator : (0 : ℚ) < denominator := Nat.cast_pos.mpr hpos
  have hunits : (0 : ℚ) < unitsPerOne := Nat.cast_pos.mpr unitsPerOne_pos
  have hproduct := mul_pos hdenominator hunits
  rw [cast_dist, value, ← cast_unitsPerOne, ← abs_of_pos hproduct, ← abs_div]
  refine congrArg abs ?_
  rw [div_sub_div _ _ hunits.ne' hdenominator.ne', Nat.cast_mul, Nat.cast_mul,
    mul_comm (unitsPerOne : ℚ), mul_comm (unitsPerOne : ℚ)]

/-- Magnitudes are as far from a ratio as their units are. -/
theorem abs_value_sub_le_iff (magnitude other : Magnitude) (numerator : Nat) (hpos : 0 < denominator) :
    |magnitude.value - numerator / denominator| ≤ |other.value - numerator / denominator| ↔
      Nat.dist (magnitude.units * denominator) (numerator * unitsPerOne) ≤
        Nat.dist (other.units * denominator) (numerator * unitsPerOne) := by
  have hproduct : (0 : ℚ) < denominator * unitsPerOne :=
    mul_pos (Nat.cast_pos.mpr hpos) (Nat.cast_pos.mpr unitsPerOne_pos)
  rw [abs_value_sub magnitude numerator hpos, abs_value_sub other numerator hpos,
    div_le_div_iff_of_pos_right hproduct, Nat.cast_le]

theorem ext_units {magnitude other : Magnitude} (h : magnitude.units = other.units) :
    magnitude = other := by
  cases magnitude
  cases other
  cases h
  rfl

theorem units_of_ofRatio? {magnitude : Magnitude}
    (h : ofRatio? numerator denominator = some magnitude) :
    magnitude.units = roundedUnits (numerator * unitsPerOne) denominator := by
  unfold ofRatio? at h
  dsimp only at h
  split at h
  · rw [← Option.some.inj h]
  · cases h

theorem isNearest_of_ofRatio? (hpos : 0 < denominator) {magnitude : Magnitude}
    (h : ofRatio? numerator denominator = some magnitude) :
    magnitude.IsNearest (numerator / denominator) := by
  have hunits := units_of_ofRatio? h
  constructor
  · intro other
    rw [abs_value_sub_le_iff _ _ _ hpos, hunits]
    exact dist_roundedUnits_le _ hpos other.representable.1
  · intro other hne hequal
    have hdist : Nat.dist (magnitude.units * denominator) (numerator * unitsPerOne) =
        Nat.dist (other.units * denominator) (numerator * unitsPerOne) :=
      Nat.le_antisymm ((abs_value_sub_le_iff _ _ _ hpos).mp hequal.le)
        ((abs_value_sub_le_iff _ _ _ hpos).mp hequal.ge)
    rw [hunits] at hdist ⊢
    refine two_mul_spacing_dvd_roundedUnits hpos other.representable.1 ?_ hdist
    rw [← hunits]
    intro hsame
    exact hne (ext_units hsame.symm)

theorem overflow_eq : overflow = (Nat.pow 2 1024 - Nat.pow 2 970 : Nat) := by
  have hle : Nat.pow 2 970 ≤ Nat.pow 2 1024 := Nat.pow_le_pow_right Nat.two_pos (by omega)
  rw [Nat.cast_sub hle, Nat.pow_eq, Nat.pow_eq, Nat.cast_pow, Nat.cast_pow, Nat.cast_ofNat, overflow]

/-- The middle between the greatest finite count and the limit. -/
theorem greatestUnits_add_unitsLimit :
    greatestUnits + unitsLimit = 2 * ((Nat.pow 2 1024 - Nat.pow 2 970) * unitsPerOne) := by
  decide +kernel

theorem overflow_le_iff (hpos : 0 < denominator) :
    overflow ≤ (numerator / denominator : ℚ) ↔ ofRatio? numerator denominator = none := by
  have hnone : ofRatio? numerator denominator = none ↔
      unitsLimit ≤ roundedUnits (numerator * unitsPerOne) denominator := by
    unfold ofRatio?
    simp
  rw [hnone, unitsLimit_le_roundedUnits_iff hpos, greatestUnits_add_unitsLimit, overflow_eq,
    le_div_iff₀ (Nat.cast_pos.mpr hpos), ← Nat.cast_mul, Nat.cast_le]
  generalize Nat.pow 2 1024 - Nat.pow 2 970 = limit
  rw [Nat.mul_assoc 2, Nat.mul_le_mul_left_iff Nat.two_pos, Nat.mul_right_comm,
    Nat.mul_le_mul_right_iff unitsPerOne_pos]

/-- What a ratio is rounded to. -/
theorem rounds_ofRatio? (numerator : Nat) (hpos : 0 < denominator) :
    Rounds (numerator / denominator) (ofRatio? numerator denominator) := by
  cases h : ofRatio? numerator denominator with
  | none => exact .tooLarge ((overflow_le_iff hpos).mpr h)
  | some magnitude =>
      refine .finite ?_ (isNearest_of_ofRatio? hpos h)
      rw [← not_le, overflow_le_iff hpos, h]
      exact Option.some_ne_none magnitude

/-! ## There is only one -/

/-- The next count after a representable one, at its spacing, is representable. -/
theorem spacing_dvd_add_spacing (hunits : spacing units ∣ units) :
    spacing (units + spacing units) ∣ units + spacing units := by
  have hnext : units + spacing units = (units / spacing units + 1) * spacing units := by
    rw [Nat.succ_mul, Nat.div_mul_cancel hunits]
  rw [hnext]
  exact spacing_dvd (Nat.succ_le_of_lt (div_spacing_lt units))

theorem value_lt_value_iff {magnitude other : Magnitude} :
    magnitude.value < other.value ↔ magnitude.units < other.units := by
  have hunits : (0 : ℚ) < 2 ^ 1074 := pow_pos two_pos 1074
  rw [value, value, div_lt_div_iff_of_pos_right hunits, Nat.cast_lt]

/-- Between two different magnitudes whose last bits are zero there is another one. -/
theorem exists_between {magnitude other : Magnitude} (hlt : magnitude.units < other.units)
    (hlast : 2 * spacing magnitude.units ∣ magnitude.units)
    (hlast' : 2 * spacing other.units ∣ other.units) :
    ∃ between : Magnitude, magnitude.value < between.value ∧ between.value < other.value := by
  have hspacing : spacing magnitude.units ∣ spacing other.units :=
    spacing_dvd_spacing (log2_le_log2 hlt.le)
  have hdvd : 2 * spacing magnitude.units ∣ other.units - magnitude.units :=
    Nat.dvd_sub (Nat.dvd_trans (Nat.mul_dvd_mul_left 2 hspacing) hlast') hlast
  have hfar := Nat.le_of_dvd (Nat.sub_pos_of_lt hlt) hdvd
  have hpos := spacing_pos magnitude.units
  have hfinite := other.representable.2
  refine ⟨⟨magnitude.units + spacing magnitude.units,
    spacing_dvd_add_spacing magnitude.representable.1, by omega⟩, ?_, ?_⟩
  · rw [value_lt_value_iff]
    dsimp only
    omega
  · rw [value_lt_value_iff]
    dsimp only
    omega

theorem abs_sub_lt_of_between {first between last number : ℚ} (hfirst : first < between)
    (hlast : between < last) (h : |first - number| = |last - number|) :
    |between - number| < |first - number| := by
  rcases abs_eq_abs.mp h with hsame | hopposite
  · linarith
  · have hhalf : number - first ≤ |first - number| := by
      rw [abs_sub_comm]
      exact le_abs_self _
    rw [abs_lt]
    constructor <;> linarith

/-- Only one magnitude is nearest to a number. -/
theorem IsNearest.unique {number : ℚ} {magnitude other : Magnitude} (h : magnitude.IsNearest number)
    (hother : other.IsNearest number) : magnitude = other := by
  have hequal : |magnitude.value - number| = |other.value - number| :=
    le_antisymm (h.le other) (hother.le magnitude)
  -- Of two different ones the last bits are zero, and the magnitude between them is nearer than both.
  by_contra hne
  have hlast := h.even other (Ne.symm hne) hequal
  have hlast' := hother.even magnitude hne hequal.symm
  rcases Nat.lt_trichotomy magnitude.units other.units with hlt | hsame | hlt
  · obtain ⟨between, hfirst, hafter⟩ := exists_between hlt hlast hlast'
    exact (h.le between).not_gt (abs_sub_lt_of_between hfirst hafter hequal)
  · exact hne (ext_units hsame)
  · obtain ⟨between, hfirst, hafter⟩ := exists_between hlt hlast' hlast
    exact (hother.le between).not_gt (abs_sub_lt_of_between hfirst hafter hequal.symm)

theorem Rounds.unique {number : ℚ} {first second : Option Magnitude} (h : Rounds number first)
    (hother : Rounds number second) : first = second := by
  cases h with
  | finite hfinite hnearest =>
      cases hother with
      | finite _ hnearest' => rw [hnearest.unique hnearest']
      | tooLarge hlarge => exact absurd hfinite hlarge.not_gt
  | tooLarge hlarge =>
      cases hother with
      | finite hfinite _ => exact absurd hfinite hlarge.not_gt
      | tooLarge _ => rfl

/-! ## Decimal numbers and integers -/

/-- What a decimal number is rounded to. -/
theorem rounds_ofDecimal? (digits : Nat) (exponent : Int) :
    Rounds (digits * 10 ^ exponent) (ofDecimal? digits exponent) := by
  rw [ofDecimal?_eq, nearest?]
  split
  · next hexponent =>
      obtain ⟨size, rfl⟩ := Int.eq_ofNat_of_zero_le hexponent
      have hratio := rounds_ofRatio? (digits * Nat.pow 10 size) Nat.one_pos
      rw [Nat.cast_one, div_one, Nat.pow_eq, Nat.cast_mul, Nat.cast_pow, Nat.cast_ofNat] at hratio
      rwa [Int.toNat_natCast, zpow_natCast]
  · next hexponent =>
      obtain ⟨places, rfl⟩ : ∃ places : Nat, exponent = -(places : Int) :=
        ⟨(-exponent).toNat, by omega⟩
      have hratio := rounds_ofRatio? digits (Nat.pow_pos (n := places) (show 0 < 10 by decide))
      rw [Nat.cast_pow, Nat.cast_ofNat, div_eq_mul_inv] at hratio
      rwa [Int.neg_neg, Int.toNat_natCast, zpow_neg, zpow_natCast]

end Magnitude

namespace Binary64

/-- What a number is rounded to. -/
inductive RoundsTo (number : ℚ) : Binary64 → Prop where
  | finite {negative : Bool} {magnitude : Magnitude} (hnegative : negative = true ↔ number < 0)
      (h : Magnitude.Rounds |number| (some magnitude)) : RoundsTo number (.finite negative magnitude)
  | infinite {negative : Bool} (hnegative : negative = true ↔ number < 0)
      (h : Magnitude.Rounds |number| none) : RoundsTo number (.infinite negative)

theorem RoundsTo.unique {number : ℚ} {first second : Binary64} (h : RoundsTo number first)
    (hother : RoundsTo number second) : first = second := by
  cases h with
  | finite hnegative hrounds =>
      cases hother with
      | finite hnegative' hrounds' =>
          rw [Bool.eq_iff_iff.mpr (hnegative.trans hnegative'.symm),
            Option.some.inj (hrounds.unique hrounds')]
      | infinite _ hrounds' => cases hrounds.unique hrounds'
  | infinite hnegative hrounds =>
      cases hother with
      | finite _ hrounds' => cases hrounds.unique hrounds'
      | infinite hnegative' _ =>
          rw [Bool.eq_iff_iff.mpr (hnegative.trans hnegative'.symm)]

/-- The number nearest to an integer is what the integer is rounded to. -/
theorem roundsTo_iff {value : Int} {number : Binary64} :
    RoundsTo value number ↔ number = ofInteger value := by
  have hrounds : RoundsTo value (ofInteger value) := by
    have hnegative : decide (value < 0) = true ↔ (value : ℚ) < 0 := by
      rw [decide_eq_true_iff, Int.cast_lt_zero]
    have hratio := Magnitude.rounds_ofRatio? value.natAbs Nat.one_pos
    rw [Nat.cast_one, div_one, Nat.cast_natAbs, Int.cast_abs] at hratio
    unfold ofInteger
    generalize Magnitude.ofRatio? value.natAbs 1 = rounded at hratio ⊢
    cases rounded with
    | none => exact .infinite hnegative hratio
    | some magnitude => exact .finite hnegative hratio
  constructor
  · intro h
    exact h.unique hrounds
  · intro h
    rw [h]
    exact hrounds

end Binary64

end SolverLog.Number
