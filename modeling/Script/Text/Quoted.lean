import Script.Text.Printable
import Script.Text.GraphemeExtend
/-! Quoted texts: a text between double quotes on one line of visible
characters. Quotes, backslashes, common controls, unprintable characters and
characters that would join onto the one before are written as escapes. -/
namespace Script.Text

/-- Lowercase hexadecimal, without leading zeros. -/
def hex (n : Nat) : String := String.ofList (Nat.toDigits 16 n)

/-- Whether a character can be seen by itself. -/
def isVisible (c : Char) : Bool := isPrintable c && !isCombining c

/-- How one character stands between the quotes. -/
def escape (c : Char) : String :=
  if c = '\x00' then "\\0"
  else if c = '\t' then "\\t"
  else if c = '\r' then "\\r"
  else if c = '\n' then "\\n"
  else if c = '"' then "\\\""
  else if c = '\\' then "\\\\"
  else if isVisible c then c.toString
  else "\\u\x7b" ++ hex c.toNat ++ "\x7d"

/-- The text between double quotes. -/
def quoted (s : String) : String :=
  "\"" ++ String.join (s.toList.map escape) ++ "\""

end Script.Text
