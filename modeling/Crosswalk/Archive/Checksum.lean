import Crosswalk.Bytes

/-!
# Checksums

The cyclic redundancy check of an archive entry: the remainder of its bits, lowest bit of each byte
first, modulo a fixed polynomial, with all bits of the start and of the result turned over.
-/

namespace Crosswalk.Checksum

/-- The polynomial, lowest power in the highest bit. -/
def polynomial : UInt32 := 0xEDB88320

/-- Shifts out `n` bits, and subtracts the polynomial for each one that is set. -/
def shift : Nat → UInt32 → UInt32
  | 0, r => r
  | n + 1, r => shift n (if r % 2 = 1 then (r / 2) ^^^ polynomial else r / 2)

/-- The remainder after another byte. -/
def step (r : UInt32) (b : UInt8) : UInt32 :=
  shift 8 (r ^^^ b.toUInt32)

/-- The checksum of a file. -/
def ofBytes (contents : Bytes) : UInt32 :=
  ~~~contents.foldl step 0xFFFFFFFF

example : ofBytes [] = 0 := by decide

end Crosswalk.Checksum
