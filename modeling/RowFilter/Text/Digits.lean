/-!
# Decimal digits

Runs of ASCII digits, the natural number a run denotes, and padding on the left.
-/

namespace RowFilter.Text

def isDigit (c : Char) : Bool := '0' ≤ c && c ≤ '9'

/-- A digit has no letter case. -/
theorem toLower_of_isDigit {c : Char} (h : isDigit c = true) : c.toLower = c := by
  simp only [isDigit, Bool.and_eq_true, decide_eq_true_eq] at h
  unfold Char.toLower
  rw [dif_neg]
  rintro ⟨hlow, _⟩
  exact absurd (Std.le_trans hlow h.2) (by decide)

/-- The value of a digit; only meaningful for the characters of `isDigit`. -/
def digitValue (c : Char) : Nat := c.toNat - '0'.toNat

/-- The number a run of digits denotes, most significant digit first. -/
def readDigits (ds : List Char) : Nat := ds.foldl (fun n c => 10 * n + digitValue c) 0

theorem readDigits_concat (ds : List Char) (c : Char) :
    readDigits (ds ++ [c]) = 10 * readDigits ds + digitValue c := by
  simp [readDigits]

/-- A run of exactly `width` digits at the head of the text, and what follows it. -/
def takeDigits (width : Nat) (s : List Char) : Option (Nat × List Char) :=
  let ds := s.take width
  if ds.length = width ∧ ds.all isDigit then some (readDigits ds, s.drop width) else none

/-- Fills up with zeros on the left to at least `width` characters. -/
def padLeft (width : Nat) (s : String) : String :=
  "".pushn '0' (width - s.length) ++ s

/-- A number with at least `width` digits. -/
def padded (width n : Nat) : String := padLeft width (toString n)

end RowFilter.Text
