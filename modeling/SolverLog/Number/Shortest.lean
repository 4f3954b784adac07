import SolverLog.Number.Decimal

/-!
# The shortest digits of a number

`Magnitude.shortest` selects the digits that a finite number is printed with: as few as read back
to that number, and with that many digits the ones nearest to it.

A finite number is a whole number over a power of two. Since 1 / 2^p is 5^p / 10^p, it is a decimal
number too, `Magnitude.exact`. Leaving out the last `dropped` of its digits leaves two candidates,
the number below and the number above. The search drops as many digits as it can; with none
dropped the number itself is left, which always reads back.
-/

namespace SolverLog.Number

/-- What to do when two candidates are equally near. -/
inductive Tie where
  /-- Take the greater. -/
  | up
  /-- Take the one whose last digit is even. -/
  | even
deriving DecidableEq, Repr

/-- Digits of a number without needless zeros: the first digit stands before the point, the
others after it, and all is multiplied by `10 ^ exponent`. -/
structure Digits where
  digits : List Char
  exponent : Int
deriving DecidableEq, Repr

namespace Digits

/-- The digits of a whole number times a power of ten. -/
def ofScaled (count : Nat) (scale : Int) : Digits :=
  let digits := Nat.toDigits 10 count
  { digits := (digits.reverse.dropWhile (· = '0')).reverse
    exponent := scale + digits.length - 1 }

/-- The digits of zero. -/
def zero : Digits := ⟨['0'], 0⟩

end Digits

namespace Magnitude

/-- The number of binary places of one unit. -/
def unitPlaces : Nat := 1074

/-- The value of a magnitude as a decimal number: in lowest terms its denominator is a power of two,
and a power of five turns that into a power of ten. -/
def exact (magnitude : Magnitude) : Decimal :=
  let common := Nat.gcd magnitude.units unitsPerOne
  let places := unitPlaces - common.log2
  { digits := magnitude.units / common * Nat.pow 5 places, exponent := -places }

/-- A candidate reads back when the magnitude is the one nearest to it. -/
def readsBack (magnitude : Magnitude) (exponent : Int) (candidate : Nat) : Bool :=
  ofDecimal? candidate exponent = some magnitude

/-- The nearer of `lower` and `lower + 1` to the value `lower + rest / whole`. -/
def nearer (tie : Tie) (lower rest whole : Nat) : Nat :=
  if 2 * rest < whole then lower
  else if whole < 2 * rest then lower + 1
  else match tie with
    | .up => lower + 1
    | .even => lower + lower % 2

/-- The candidate with that many digits dropped that reads back; of two, the nearer one. -/
def candidate? (tie : Tie) (magnitude : Magnitude) (exact : Decimal) (dropped : Nat) : Option Nat :=
  let whole := Nat.pow 10 dropped
  let lower := exact.digits / whole
  let rest := exact.digits % whole
  let exponent := exact.exponent + dropped
  match magnitude.readsBack exponent lower, magnitude.readsBack exponent (lower + 1) with
  | true, true => some (nearer tie lower rest whole)
  | true, false => some lower
  | false, true => some (lower + 1)
  | false, false => none

/-- The first candidate found while ever fewer digits of the exact value are dropped. -/
def search (tie : Tie) (magnitude : Magnitude) (exact : Decimal) : Nat → Digits
  | 0 => Digits.ofScaled exact.digits exact.exponent
  | dropped + 1 =>
    match candidate? tie magnitude exact (dropped + 1) with
    | some count => Digits.ofScaled count (exact.exponent + (dropped + 1 : Nat))
    | none => search tie magnitude exact dropped

/-- The shortest digits that read back. The search starts with all digits but the first dropped. -/
def shortest (tie : Tie) (magnitude : Magnitude) : Digits :=
  if magnitude.units = 0 then Digits.zero
  else
    let exact := magnitude.exact
    search tie magnitude exact ((Nat.toDigits 10 exact.digits).length - 1)

end Magnitude

end SolverLog.Number
