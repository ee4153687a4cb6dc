import Crosswalk.Text.Hex

/-!
# Quoted text

A text or a character as a message shows it: between quotes, with the quote itself and the
backslash escaped, the usual control characters by letter, and any other character that does not
print by its number.
-/

namespace Crosswalk.Quoted

/-- Characters that do not print: the two blocks of control characters, the no-break space and the
soft hyphen. -/
def isUnprintable (c : Char) : Bool :=
  c.toNat < 0x20 || (0x7F ≤ c.toNat && c.toNat ≤ 0xA0) || c.toNat = 0xAD

/-- A character as it stands between quotes of the given kind. -/
def escapeChar (quote c : Char) : String :=
  if c = '\x00' then "\\0"
  else if c = '\t' then "\\t"
  else if c = '\r' then "\\r"
  else if c = '\n' then "\\n"
  else if c = '\\' || c = quote then String.ofList ['\\', c]
  else if isUnprintable c then "\\u\x7b" ++ Hex.lower c.toNat ++ "\x7d"
  else String.ofList [c]

/-- A text between double quotes. -/
def text (s : String) : String :=
  "\"" ++ String.join (s.toList.map (escapeChar '"')) ++ "\""

/-- A character between single quotes. -/
def char (c : Char) : String :=
  "'" ++ escapeChar '\'' c ++ "'"

end Crosswalk.Quoted
