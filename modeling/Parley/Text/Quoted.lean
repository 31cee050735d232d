import Parley.Text.Unicode

/-!
# Quoted text in messages

Messages show a string between double quotes, with a backslash escape for the quote, the backslash
and the characters that do not show by themselves.

* `quoted` : the quoted form of a string.
-/

namespace Parley

/-- The hexadecimal digits of `n`, lower case, without padding. -/
def hexDigits (n : Nat) : String :=
  String.ofList (Nat.toDigits 16 n)

/-- One character inside quotes: the five short escapes and NUL by name, any other character that
belongs to the one before it or does not show by its number in braces. -/
def quotedChar (c : Char) : String :=
  if c = '"' then "\\\""
  else if c = '\\' then "\\\\"
  else if c = '\n' then "\\n"
  else if c = '\r' then "\\r"
  else if c = '\t' then "\\t"
  else if c = '\x00' then "\\0"
  else if isGraphemeExtended c || !isPrintable c then "\\u\x7b" ++ hexDigits c.toNat ++ "\x7d"
  else c.toString

/-- A string as messages show it. -/
def quoted (s : String) : String :=
  "\"" ++ String.join (s.toList.map quotedChar) ++ "\""

end Parley
