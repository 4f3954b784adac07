import SolverLog.Number.Shortest

/-!
# Styles of printing a number

The digits of a number are selected elsewhere; a `Style` says how they are laid out. Numbers whose
leading digit stands in a given range of places are written positionally, with a point and at
least one digit on either side of it. All others are written in scientific notation, where a
single digit stands without a point.
-/

namespace SolverLog.Number

/-- The decisions of one printed form of numbers. -/
structure Style where
  /-- The least exponent of the leading digit that is written positionally. -/
  least : Int
  /-- The greatest exponent of the leading digit that is written positionally. -/
  greatest : Int
  /-- Whether an exponent that is not negative is written with a plus sign. -/
  plus : Bool
  /-- What is done when two shortest candidates are equally near. -/
  tie : Tie

/-- That many zeros. -/
def zeros (count : Nat) : List Char :=
  List.replicate count '0'

namespace Digits

/-- Digits with a point, and at least one digit on either side of it. -/
def positional (number : Digits) : List Char :=
  if number.exponent < 0 then
    '0' :: '.' :: zeros (-number.exponent - 1).toNat ++ number.digits
  else
    let places := number.exponent.toNat + 1
    let whole := number.digits.take places ++ zeros (places - number.digits.length)
    let fraction := number.digits.drop places
    whole ++ '.' :: (if fraction = [] then ['0'] else fraction)

/-- Digits with an exponent; a point follows the first digit if there are others. -/
def scientific (plus : Bool) (number : Digits) : List Char :=
  let digits := match number.digits with
    | first :: second :: rest => first :: '.' :: second :: rest
    | digits => digits
  let sign := if number.exponent < 0 then ['-'] else if plus then ['+'] else []
  digits ++ 'e' :: sign ++ Nat.toDigits 10 number.exponent.natAbs

end Digits

namespace Style

/-- The text of digits in a style. -/
def layout (style : Style) (number : Digits) : List Char :=
  if style.least ≤ number.exponent ∧ number.exponent ≤ style.greatest then number.positional
  else number.scientific style.plus

/-- A minus sign in front of a negative number. -/
def signed (negative : Bool) (text : List Char) : List Char :=
  if negative then '-' :: text else text

/-- The text of a finite number in a style. -/
def finiteText (style : Style) (negative : Bool) (magnitude : Magnitude) : String :=
  String.ofList (signed negative (style.layout (magnitude.shortest style.tie)))

/-- The text of a number in a style. -/
def text (style : Style) : Binary64 → String
  | .nan => "NaN"
  | .infinite negative => String.ofList (signed negative "inf".toList)
  | .finite negative magnitude => style.finiteText negative magnitude

end Style

end SolverLog.Number
