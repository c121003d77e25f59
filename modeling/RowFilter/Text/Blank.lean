/-!
# Blank characters

The characters that may surround a numeral: the white space and line terminators of Unicode,
and the byte order mark. The table is a list of closed ranges of code points, ascending and
apart, so that its shape can be checked at a glance.
-/

namespace RowFilter.Text

/-- Closed ranges of code points. The next-line control U+0085 and the zero width space U+200B
are not among them. -/
def blankRanges : List (Nat × Nat) :=
  [(0x09, 0x0D), (0x20, 0x20), (0xA0, 0xA0), (0x1680, 0x1680), (0x2000, 0x200A),
   (0x2028, 0x2029), (0x202F, 0x202F), (0x205F, 0x205F), (0x3000, 0x3000), (0xFEFF, 0xFEFF)]

def isBlank (c : Char) : Bool :=
  blankRanges.any fun r => r.1 ≤ c.toNat && c.toNat ≤ r.2

/-- Every character that is white space in the ASCII sense is blank. -/
theorem isBlank_of_isWhitespace (c : Char) (h : c.isWhitespace = true) : isBlank c = true := by
  simp [Char.isWhitespace] at h
  rcases h with ((h | h) | h) | h <;> subst h <;> decide

example : [0x85, 0x200B, 0xFEFF].map (isBlank ∘ Char.ofNat) = [false, false, true] := by decide

/-- Drops the blanks at both ends. -/
def trim (s : List Char) : List Char :=
  ((s.dropWhile isBlank).reverse.dropWhile isBlank).reverse

end RowFilter.Text
