import SolverLog.Number.Binary64
import SolverLog.Number.Integer

/-!
# Reading binary64 numbers

A number is written as an optional sign and one of

* `inf`, `infinity` or `nan`, in letters of either case;
* decimal digits, at most one point among, before or after them, at least one digit in all, and
  optionally an exponent: `e` or `E`, an optional sign and at least one digit.

It is read as the nearest binary64 number (`Binary64.read?`). A number that is too large is
infinite, and the sign of NaN is dropped.
-/

namespace SolverLog.Number

/-- A decimal number, `digits * 10 ^ exponent`. -/
structure Decimal where
  digits : Nat
  exponent : Int
deriving DecidableEq, Repr

namespace Decimal

/-- Reads the exponent part of a number, which may be missing. -/
def exponent? : List Char → Option Int
  | [] => some 0
  | mark :: text =>
    if mark = 'e' ∨ mark = 'E' then
      let (negative, digits) := takeSign text
      (Number.natural? digits).map fun size => if negative then -size else size
    else
      none

/-- Takes the fraction off a text that has one: the digits after a point. -/
def takeFraction : List Char → List Char × List Char
  | '.' :: text => text.span Char.isDigit
  | text => ([], text)

/-- Reads an unsigned decimal number. -/
def read? (text : List Char) : Option Decimal :=
  let (whole, afterWhole) := text.span Char.isDigit
  let (fraction, afterFraction) := takeFraction afterWhole
  if whole = [] ∧ fraction = [] then none
  else
    (exponent? afterFraction).map fun exponent =>
      { digits := digitsValue (whole ++ fraction), exponent := exponent - fraction.length }

end Decimal

namespace Binary64

/-- Reads an unsigned number, by word or by decimal, and gives it a sign. -/
def readUnsigned? (negative : Bool) (text : List Char) : Option Binary64 :=
  let word := String.ofList (text.map Char.toLower)
  if word = "nan" then some nan
  else if word = "inf" ∨ word = "infinity" then some (infinite negative)
  else
    (Decimal.read? text).map fun decimal =>
      ofSigned negative (Magnitude.ofDecimal? decimal.digits decimal.exponent)

/-- Reads a number. Blanks are not part of a number. -/
def read? (text : List Char) : Option Binary64 :=
  let (negative, unsigned) := takeSign text
  readUnsigned? negative unsigned

end Binary64

end SolverLog.Number
