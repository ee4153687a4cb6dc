/-!
# Sixteen-bit units

A character up to U+FFFF is one unit, a later one is a pair of surrogates. `units` spells a text in
units and `ofUnits?` reads it back; a list with a surrogate that has no partner spells no text.
-/

namespace Crosswalk.Utf16

/-! ## From characters to units -/

/-- The units that spell one character. -/
def unitsOfChar (c : Char) : List UInt16 :=
  if c.toNat < 0x10000 then
    [UInt16.ofNat c.toNat]
  else
    let offset := c.toNat - 0x10000
    [UInt16.ofNat (0xD800 + offset / 0x400), UInt16.ofNat (0xDC00 + offset % 0x400)]

/-- The units that spell a text. -/
def units (text : String) : List UInt16 :=
  text.toList.flatMap unitsOfChar

/-! ## From units to characters -/

/-- The first half of a pair. -/
def isHigh (u : UInt16) : Bool :=
  0xD800 ≤ u && u < 0xDC00

/-- The second half of a pair. -/
def isLow (u : UInt16) : Bool :=
  0xDC00 ≤ u && u < 0xE000

/-- The character that a pair spells. -/
def pairChar (high low : UInt16) : Char :=
  Char.ofNat (0x10000 + (high.toNat - 0xD800) * 0x400 + (low.toNat - 0xDC00))

/-- Reads units to the end, behind the characters in `done`, which are kept last first. -/
def charsAfter : List Char → List UInt16 → Option (List Char)
  | done, [] => some done.reverse
  | done, [u] => if isHigh u || isLow u then none else some (Char.ofNat u.toNat :: done).reverse
  | done, u :: v :: rest =>
    if isHigh u then
      if isLow v then charsAfter (pairChar u v :: done) rest else none
    else if isLow u then
      none
    else
      charsAfter (Char.ofNat u.toNat :: done) (v :: rest)

/-- The text that the units spell, if every surrogate has its partner. -/
def ofUnits? (us : List UInt16) : Option String :=
  (charsAfter [] us).map String.ofList

@[simp] theorem units_empty : units "" = [] := rfl

@[simp] theorem ofUnits?_nil : ofUnits? [] = some "" := rfl

/-- A surrogate alone spells nothing. -/
example : ofUnits? [0xD800] = none := rfl

end Crosswalk.Utf16
