-- Quoted names. A message that quotes a name shows every character of it, so
-- a quote, a backslash and a character that cannot be seen are escaped.
import HeapRetention.Numeral
import HeapRetention.Text.Unshown

namespace HeapRetention.Text

/-- A character between quotes. -/
def showChar (c : Char) : List Char :=
  if c = '"' then ['\\', '"']
  else if c = '\\' then ['\\', '\\']
  else if c = '\n' then ['\\', 'n']
  else if c = '\r' then ['\\', 'r']
  else if c = '\t' then ['\\', 't']
  else if c.toNat = 0 then ['\\', '0']
  else if 32 ≤ c.toNat ∧ c.toNat < 127 then [c]
  else if isUnshown c then '\\' :: 'u' :: '{' :: Numeral.digits 16 c.toNat ++ ['}']
  else [c]

/-- A name in quotes. -/
def quoted (name : String) : String :=
  String.ofList ('"' :: name.toList.flatMap showChar ++ ['"'])

end HeapRetention.Text
