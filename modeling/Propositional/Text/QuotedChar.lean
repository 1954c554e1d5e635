import Propositional.Text.Blank

/-!
# Quoted characters

How a single character is shown inside a message: between single quotes, with the usual short
escapes, and by its code point where it has no visible form.
-/

namespace Propositional.Text

/-- A control character: the code points below 32 and those from 127 to 159. -/
def isControl (c : Char) : Bool := c.toNat < 32 || (127 ≤ c.toNat && c.toNat < 160)

/-- The code point in lower case hexadecimal, without leading zeros. -/
def codePoint (c : Char) : String := "\\u\x7b" ++ String.ofList (Nat.toDigits 16 c.toNat) ++ "\x7d"

/-- The character as it stands between the quotes. -/
def escape (c : Char) : String :=
  if c = '\x00' then "\\0"
  else if c = '\t' then "\\t"
  else if c = '\n' then "\\n"
  else if c = '\r' then "\\r"
  else if c = '\\' then "\\\\"
  else if c = '\x27' then "\\'"
  else if isControl c || (isBlank c && c != ' ') then codePoint c
  else c.toString

/-- The character between single quotes. -/
def quoteChar (c : Char) : String := "'" ++ escape c ++ "'"

end Propositional.Text
