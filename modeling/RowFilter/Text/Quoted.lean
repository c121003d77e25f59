/-!
# Quoted text

A text between double quotes. The quote, the backslash and the control characters below
U+0020 are escaped; every other character stands for itself.
-/

namespace RowFilter.Text

def hexDigit (n : Nat) : Char :=
  if n < 10 then Char.ofNat ('0'.toNat + n) else Char.ofNat ('a'.toNat + (n - 10))

/-- The written form of one character. Five controls have a letter of their own, the other
controls are written as four hexadecimal digits. -/
def quoteChar (c : Char) : List Char :=
  if c = '"' then ['\\', '"']
  else if c = '\\' then ['\\', '\\']
  else if c = '\n' then ['\\', 'n']
  else if c = '\r' then ['\\', 'r']
  else if c = '\t' then ['\\', 't']
  else if c.toNat = 8 then ['\\', 'b']
  else if c.toNat = 12 then ['\\', 'f']
  else if c.toNat < 0x20 then
    ['\\', 'u', '0', '0', hexDigit (c.toNat / 16), hexDigit (c.toNat % 16)]
  else [c]

def quote (s : String) : String :=
  String.ofList ('"' :: s.toList.flatMap quoteChar ++ ['"'])

theorem toList_quote (s : String) :
    (quote s).toList = '"' :: s.toList.flatMap quoteChar ++ ['"'] := by
  simp [quote]

end RowFilter.Text
