/-!
# Spelling without letter case

Some words keep their meaning in every letter case. They are ASCII words without the letter k,
and no character outside ASCII has one of their letters as its lower case, so that lowering
the ASCII letters decides the question for every text.
-/

namespace RowFilter.Text

/-- Does the text spell the lower-case word `word` in some letter case? -/
def spells (word text : String) : Bool :=
  text.toList.map Char.toLower == word.toList

theorem spells_iff (word text : String) :
    spells word text = true ↔ text.toList.map Char.toLower = word.toList := by
  simp [spells]

end RowFilter.Text
