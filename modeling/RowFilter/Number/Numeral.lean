import RowFilter.Number
import RowFilter.Text.Blank
import RowFilter.Text.Digits

/-!
# Numerals

Two grammars for numbers written as text. Blanks may surround both, and both take a sign.

* A whole numeral is one or more digits.
* A decimal numeral has digits before or behind an optional point, and may end in an exponent.
-/

namespace RowFilter.Numeral
open Text

/-- A sign at the head of the text: whether it is a minus, and what follows. -/
def splitSign : List Char → Bool × List Char
  | '-' :: s => (true, s)
  | '+' :: s => (false, s)
  | s => (false, s)

/-- The sign and the magnitude of a whole numeral (`INTEGER_REGEX`). -/
def whole? (s : List Char) : Option (Bool × Nat) :=
  let (negative, ds) := splitSign (trim s)
  if ds ≠ [] ∧ ds.all isDigit then some (negative, readDigits ds) else none

/-- An exponent at the very end of a decimal numeral; without one the power is zero. -/
def exponent? : List Char → Option Int
  | [] => some 0
  | c :: s =>
    if c = 'e' ∨ c = 'E' then
      let (negative, ds) := splitSign s
      if ds ≠ [] ∧ ds.all isDigit then
        some (if negative then -(readDigits ds : Int) else readDigits ds)
      else none
    else none

/-- The digits behind an optional point, and what follows them. -/
def splitFraction : List Char → List Char × List Char
  | '.' :: s => (s.takeWhile isDigit, s.dropWhile isDigit)
  | s => ([], s)

/-- The number a decimal numeral (`FLOAT_REGEX`) denotes. -/
def decimal? (s : List Char) : Option Number := do
  let (negative, body) := splitSign (trim s)
  let front := body.takeWhile isDigit
  let (back, rest) := splitFraction (body.dropWhile isDigit)
  if front = [] ∧ back = [] then none
  else
    let power ← exponent? rest
    return .ofDecimal negative (readDigits (front ++ back)) (power - back.length)

example : whole? " -007 ".toList = some (true, 7) := by decide +kernel
example : whole? "1.0".toList = none := by decide +kernel
example : decimal? ".5e1".toList = some (.ofNat 5) := by decide +kernel
example : decimal? ".".toList = none := by decide +kernel

end RowFilter.Numeral
