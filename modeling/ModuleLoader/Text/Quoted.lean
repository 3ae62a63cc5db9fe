/-! Text in double quotes: the string literals that JSON and scripts share. -/

namespace ModuleLoader.Text

/-- How one character is written between quotes. Quotes, backslashes and controls are escaped,
and everything else stands for itself. -/
def escapeChar (c : Char) : List Char :=
  if c = '"' then ['\\', '"']
  else if c = '\\' then ['\\', '\\']
  else if c = '\x08' then ['\\', 'b']
  else if c = '\x0c' then ['\\', 'f']
  else if c = '\n' then ['\\', 'n']
  else if c = '\r' then ['\\', 'r']
  else if c = '\t' then ['\\', 't']
  else if c.toNat < 0x20 then
    ['\\', 'u', '0', '0', Nat.digitChar (c.toNat / 16), Nat.digitChar (c.toNat % 16)]
  else [c]

def escape (s : List Char) : List Char := s.flatMap escapeChar

/-- The string literal that denotes `s`. -/
def quote (s : String) : String := String.ofList ('"' :: escape s.toList ++ ['"'])

theorem toList_quote (s : String) : (quote s).toList = '"' :: escape s.toList ++ ['"'] := by
  simp [quote]

end ModuleLoader.Text
