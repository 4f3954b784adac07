import SolverLog.Number.Decimal
import SolverLog.Number.Style
import SolverLog.Text.Blank

/-!
# Values

What a field of a log line holds. A literal is read as an integer of 64 bits if it is written as
one, else as a binary64 number if it is written as one, else it is its own text; blanks around it
do not count. A value that spans several lines is an array.

`Value.display` is the text of a value for people. It keeps a point or an exponent in every
finite number, so that the text of a number is not the text of an integer.
-/

namespace SolverLog

open Number

/-- A value of a field. -/
inductive Value where
  | integer (value : Int)
  | real (value : Binary64)
  | text (words : String)
  | array (items : List Value)

namespace Value

mutual

/-- Decides whether two values are one. -/
def decEq : (a b : Value) → Decidable (a = b)
  | integer m, integer n => if h : m = n then .isTrue (by rw [h]) else .isFalse (by simp [h])
  | integer _, real _ => .isFalse (by simp)
  | integer _, text _ => .isFalse (by simp)
  | integer _, array _ => .isFalse (by simp)
  | real x, real y => if h : x = y then .isTrue (by rw [h]) else .isFalse (by simp [h])
  | real _, integer _ => .isFalse (by simp)
  | real _, text _ => .isFalse (by simp)
  | real _, array _ => .isFalse (by simp)
  | text s, text t => if h : s = t then .isTrue (by rw [h]) else .isFalse (by simp [h])
  | text _, integer _ => .isFalse (by simp)
  | text _, real _ => .isFalse (by simp)
  | text _, array _ => .isFalse (by simp)
  | array xs, array ys =>
    match decEqItems xs ys with
    | .isTrue h => .isTrue (by rw [h])
    | .isFalse h => .isFalse (by simp [h])
  | array _, integer _ => .isFalse (by simp)
  | array _, real _ => .isFalse (by simp)
  | array _, text _ => .isFalse (by simp)

/-- Decides whether two lists of values are one. -/
def decEqItems : (xs ys : List Value) → Decidable (xs = ys)
  | [], [] => .isTrue rfl
  | [], _ :: _ => .isFalse (by simp)
  | _ :: _, [] => .isFalse (by simp)
  | x :: xs, y :: ys =>
    match decEq x y with
    | .isTrue hx =>
      match decEqItems xs ys with
      | .isTrue hxs => .isTrue (by rw [hx, hxs])
      | .isFalse hxs => .isFalse (by simp [hxs])
    | .isFalse hx => .isFalse (by simp [hx])

end

instance : DecidableEq Value := decEq

/-- Reads a literal. -/
def ofLiteral (literal : String) : Value :=
  let trimmed := Text.trim literal.toList
  match integer? trimmed with
  | some value => integer value
  | none =>
    match Binary64.read? trimmed with
    | some value => real value
    | none => text (String.ofList trimmed)

/-- The style of numbers in displayed values: positional from 0.0001 up to below 10^16, and no plus
sign in exponents. -/
def displayStyle : Style where
  least := -4
  greatest := 15
  plus := false
  tie := .up

mutual

/-- The text of a value: a text stands as it is, an array in brackets. -/
def display : Value → String
  | integer value => integerText value
  | real value => displayStyle.text value
  | text words => words
  | array items => "[" ++ ", ".intercalate (displayItems items) ++ "]"

/-- The texts of a list of values. -/
def displayItems : List Value → List String
  | [] => []
  | item :: items => display item :: displayItems items

end

/-! Where the positional form ends, and a number with two nearest texts. -/

example : (ofLiteral "1e-4").display = "0.0001" := by decide +kernel
example : (ofLiteral "1e-5").display = "1e-5" := by decide +kernel
example : (ofLiteral "1e15").display = "1000000000000000.0" := by decide +kernel
example : (ofLiteral "1e16").display = "1e16" := by decide +kernel
example : (ofLiteral "2.98023223876953125e-8").display = "2.9802322387695313e-8" := by
  decide +kernel

/-- The integer that a value is. -/
def integer? : Value → Option Int
  | integer value => some value
  | _ => none

/-- The number that a value is; an integer counts as the number nearest to it. -/
def real? : Value → Option Binary64
  | integer value => some (Binary64.ofInteger value)
  | real value => some value
  | _ => none

/-- The text that a value is. -/
def text? : Value → Option String
  | text words => some words
  | _ => none

/-- The items of the array that a value is. -/
def items? : Value → Option (List Value)
  | array items => some items
  | _ => none

mutual

/-- Whether two values are of one kind and agree, numbers being compared as numbers: NaN agrees
with nothing, and the two zeros agree. -/
def same : Value → Value → Bool
  | integer m, integer n => m = n
  | real x, real y => x.same y
  | text s, text t => s = t
  | array xs, array ys => sameItems xs ys
  | _, _ => false

/-- Whether two lists of values agree item by item. -/
def sameItems : List Value → List Value → Bool
  | [], [] => true
  | x :: xs, y :: ys => same x y && sameItems xs ys
  | _, _ => false

end

end Value

end SolverLog
