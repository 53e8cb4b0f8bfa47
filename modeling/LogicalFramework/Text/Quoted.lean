/-!
# Quoted text

Keys of a listing are shown between double quotes. Quotes and backslashes are escaped, and control
characters are written by an escape of their own.
-/

namespace LogicalFramework.Text

/-- The hexadecimal digits of a code point, without leading zeros. -/
def hexadecimal (c : Char) : List Char :=
  Nat.toDigits 16 c.toNat

/-- How one character is written between double quotes. -/
def escape (c : Char) : List Char :=
  if c = '"' then ['\\', '"']
  else if c = '\\' then ['\\', '\\']
  else if c = '\n' then ['\\', 'n']
  else if c = '\r' then ['\\', 'r']
  else if c = '\t' then ['\\', 't']
  else if c.toNat = 0 then ['\\', '0']
  else if c.toNat < 0x20 ∨ c.toNat = 0x7F then
    ['\\', 'u', Char.ofNat 0x7B] ++ hexadecimal c ++ [Char.ofNat 0x7D]
  else [c]

/-- Text between double quotes, with its special characters escaped. -/
def quoted (s : String) : String :=
  String.ofList ('"' :: s.toList.flatMap escape ++ ['"'])

end LogicalFramework.Text
