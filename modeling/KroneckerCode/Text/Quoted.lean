import KroneckerCode.Text.Extender
import KroneckerCode.Text.Unprintable

/-!
# Quoted text

A text between double quotes, in which a backslash begins an escape. Quotes and
backslashes are escaped, the common controls have short names, and any other
character that would not show, or would show only on its neighbour, is written by
its number in braces. Everything else stands for itself.
-/

namespace KroneckerCode.Text.Quoted

/-- Whether the character stands for itself: it shows, and on its own. -/
def shows (c : Char) : Bool :=
  !isUnprintable c && !isExtender c

/-- The escape, or the character itself. -/
def escape (c : Char) : String :=
  if c = '"' then "\\\""
  else if c = '\\' then "\\\\"
  else if c = '\n' then "\\n"
  else if c = '\r' then "\\r"
  else if c = '\t' then "\\t"
  else if c.toNat = 0 then "\\0"
  else if shows c then String.singleton c
  else "\\u\x7b" ++ String.ofList (Nat.toDigits 16 c.toNat) ++ "\x7d"

/-- The text between quotes, with its escapes. -/
def quote (text : String) : String :=
  "\"" ++ String.join (text.toList.map escape) ++ "\""

end KroneckerCode.Text.Quoted
