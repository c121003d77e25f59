import RowFilter.Text.Digits

/-!
# Fixed forms

A form is a sequence of digit fields of fixed width and single marks, such as the form of a
day, `dddd-dd-dd`. Reading a text in a form yields one number per field; writing the numbers
gives the text back.
-/

namespace RowFilter.Text

inductive Piece where
  | field (width : Nat)
  | mark (c : Char)

abbrev Form := List Piece

namespace Form

/-- The numbers in a text that has the form from its first character to its last
(`matchNumbers`). -/
def read : Form → List Char → Option (List Nat)
  | [], [] => some []
  | [], _ :: _ => none
  | .field width :: form, s =>
    match takeDigits width s with
    | some (n, rest) => (read form rest).map (n :: ·)
    | none => none
  | .mark _ :: _, [] => none
  | .mark c :: form, d :: s => if c = d then read form s else none

/-- Writes the fields with zeros in front. -/
def write : Form → List Nat → List Char
  | [], _ => []
  | .mark c :: form, ns => c :: write form ns
  | .field width :: form, n :: ns => (padded width n).toList ++ write form ns
  | .field _ :: _, [] => []

/-- The form of a day (`DATE_REGEX`). -/
def day : Form := [.field 4, .mark '-', .field 2, .mark '-', .field 2]

/-- The form of a time of day (`TIME_REGEX`). -/
def time : Form := [.field 2, .mark ':', .field 2, .mark ':', .field 2]

/-- A day and a time with one blank between them (`DATETIME_REGEX`). -/
def dayTime : Form := day ++ .mark ' ' :: time

example : day.read "2015-03-11".toList = some [2015, 3, 11] := by decide +kernel
example : day.read "2015-3-11".toList = none := by decide +kernel
example : time.write [1, 45, 14] = "01:45:14".toList := by decide +kernel

end Form
end RowFilter.Text
