/-!
# Integers in decimal

An integer is written as an optional sign and at least one decimal digit, and is read only when
it fits in 64 bits. Digits are those of ASCII.
-/

namespace SolverLog.Number

/-- The number that a run of decimal digits denotes, leading zeros included. -/
def digitsValue (digits : List Char) : Nat :=
  digits.foldl (fun value c => 10 * value + (c.toNat - '0'.toNat)) 0

/-- Reads a run of at least one decimal digit. -/
def natural? (text : List Char) : Option Nat :=
  if text ≠ [] ∧ text.all Char.isDigit then some (digitsValue text) else none

/-- Takes an optional sign off a text; the flag says whether it was a minus sign. -/
def takeSign : List Char → Bool × List Char
  | '-' :: rest => (true, rest)
  | '+' :: rest => (false, rest)
  | text => (false, text)

/-- The least integer of 64 bits, -2^63. -/
def leastInteger : Int := -9223372036854775808

/-- The greatest integer of 64 bits, 2^63 - 1. -/
def greatestInteger : Int := 9223372036854775807

/-- The integer of that sign and size, if it fits in 64 bits. -/
def signedInteger? (negative : Bool) (size : Nat) : Option Int :=
  let value : Int := if negative then -size else size
  if leastInteger ≤ value ∧ value ≤ greatestInteger then some value else none

/-- Reads an optional sign and decimal digits as an integer of 64 bits. -/
def integer? (text : List Char) : Option Int :=
  let (negative, digits) := takeSign text
  (natural? digits).bind (signedInteger? negative)

/-- The decimal text of an integer: a minus sign if it is negative, and no needless zeros. -/
def integerText (value : Int) : String :=
  if value < 0 then "-" ++ Nat.repr value.natAbs else Nat.repr value.natAbs

end SolverLog.Number
