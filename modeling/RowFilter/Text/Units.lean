/-!
# Text in UTF-16 units

Some lengths and places in a text are counted in UTF-16 units, of which a character beyond the
basic plane takes two. Half of such a character is no character. It stands here as the private
character that has the same last sixteen bits, so that the two halves still tell which character
they come from.
-/

namespace RowFilter.Text

/-- Does a character take one unit only? -/
def isBasic (c : Char) : Bool := c.toNat < 0x10000

/-- The first unit of a character that takes two. -/
def leadUnit (c : Char) : Nat := 0xD800 + (c.toNat - 0x10000) / 0x400

/-- The second unit of a character that takes two. -/
def trailUnit (c : Char) : Nat := 0xDC00 + (c.toNat - 0x10000) % 0x400

theorem leadUnit_trailUnit {c : Char} (h : isBasic c = false) :
    0x10000 + (leadUnit c - 0xD800) * 0x400 + (trailUnit c - 0xDC00) = c.toNat := by
  simp only [isBasic, decide_eq_false_iff_not, leadUnit, trailUnit] at h ⊢
  omega

/-- The character in the place of half a character. -/
def half (unit : Nat) : Char := Char.ofNat (0x100000 + unit)

/-- The unit that a character stands for, if it stands for half a character. -/
def halfUnit? (c : Char) : Option Nat :=
  if 0x10D800 ≤ c.toNat ∧ c.toNat < 0x10E000 then some (c.toNat - 0x100000) else none

/-- The UTF-16 units of a text, each as a character. -/
def units : List Char → List Char
  | [] => []
  | c :: s => if isBasic c then c :: units s else half (leadUnit c) :: half (trailUnit c) :: units s

theorem length_units (s : List Char) :
    (units s).length = s.length + s.countP fun c => !isBasic c := by
  induction s with
  | nil => rfl
  | cons c s ih => cases h : isBasic c <;> simp [units, h, ih] <;> omega

theorem units_of_isBasic {s : List Char} (h : ∀ c ∈ s, isBasic c = true) : units s = s := by
  induction s with
  | nil => rfl
  | cons c s ih =>
    simp only [List.mem_cons, forall_eq_or_imp] at h
    simp [units, h.1, ih h.2]

example : (units ['a', Char.ofNat 0x1F600]).map halfUnit? = [none, some 0xD83D, some 0xDE00] := by
  decide

end RowFilter.Text
