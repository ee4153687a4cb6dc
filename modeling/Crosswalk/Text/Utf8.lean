import Crosswalk.Bytes

/-!
# UTF-8 with replacements

`lossy` reads any bytes as text. Where they are no UTF-8, each stretch that could have been the
start of a character, or else a single byte, is read as U+FFFD.
-/

namespace Crosswalk.Utf8

/-- The character that stands for what cannot be read. -/
def replacement : Char := '\uFFFD'

/-- How many bytes follow a byte that starts a character, and between which bounds the next one has
to lie. The bounds keep out surrogates, overlong forms and what is too large. -/
def lead? (b : UInt8) : Option (Nat × UInt8 × UInt8) :=
  if 0xC2 ≤ b && b ≤ 0xDF then some (1, 0x80, 0xBF)
  else if b = 0xE0 then some (2, 0xA0, 0xBF)
  else if b = 0xED then some (2, 0x80, 0x9F)
  else if 0xE1 ≤ b && b ≤ 0xEF then some (2, 0x80, 0xBF)
  else if b = 0xF0 then some (3, 0x90, 0xBF)
  else if 0xF1 ≤ b && b ≤ 0xF3 then some (3, 0x80, 0xBF)
  else if b = 0xF4 then some (3, 0x80, 0x8F)
  else none

/-- The bits that a starting byte contributes if `following` bytes follow it. -/
def leadBits (b : UInt8) (following : Nat) : Nat :=
  b.toNat % Nat.pow 2 (6 - following)

/-- Reads bytes behind the characters in `done`, which are kept last first. Within a character,
`value` holds its bits so far, `missing` bytes are still to come, and the next one has to lie
between the bounds. -/
def read (done : List Char) (missing value : Nat) (low high : UInt8) : Bytes → List Char
  | [] => (if missing = 0 then done else replacement :: done).reverse
  | b :: rest =>
    if 0 < missing && low ≤ b && b ≤ high then
      let value := value * 64 + b.toNat % 64
      let done := if missing = 1 then Char.ofNat value :: done else done
      read done (missing - 1) value 0x80 0xBF rest
    else
      let done := if missing = 0 then done else replacement :: done
      if b < 0x80 then read (Char.ofNat b.toNat :: done) 0 0 0x80 0xBF rest
      else
        match lead? b with
        | some (following, low, high) => read done following (leadBits b following) low high rest
        | none => read (replacement :: done) 0 0 0x80 0xBF rest

/-- The text that bytes spell. -/
def lossy (bytes : Bytes) : String :=
  String.ofList (read [] 0 0 0x80 0xBF bytes)

end Crosswalk.Utf8
