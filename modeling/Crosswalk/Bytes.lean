/-!
# Big-endian bytes

Class files hold numbers of one, two, four and eight bytes, the high byte first. A number is
written with `Bytes.ofUInt16` and its companions and put together again with `Bytes.toUInt16`;
`toUInt16_ofUInt16` and `toUInt32_ofUInt32` say that nothing is lost on the way.
-/

namespace Crosswalk

/-- The contents of a file, or a stretch of it. -/
abbrev Bytes := List UInt8

namespace Bytes

/-! ## Writing -/

/-- The two bytes of a 16-bit number, high byte first. -/
def ofUInt16 (n : UInt16) : Bytes :=
  [(n / 256).toUInt8, n.toUInt8]

/-- The four bytes of a 32-bit number, high byte first. -/
def ofUInt32 (n : UInt32) : Bytes :=
  ofUInt16 (n / 65536).toUInt16 ++ ofUInt16 n.toUInt16

/-- The eight bytes of a 64-bit number, high byte first. -/
def ofUInt64 (n : UInt64) : Bytes :=
  ofUInt32 (n / 4294967296).toUInt32 ++ ofUInt32 n.toUInt32

/-! ## Putting together -/

/-- The 16-bit number with the given high and low byte. -/
def toUInt16 (high low : UInt8) : UInt16 :=
  high.toUInt16 * 256 + low.toUInt16

/-- The 32-bit number with the given high and low half. -/
def toUInt32 (high low : UInt16) : UInt32 :=
  high.toUInt32 * 65536 + low.toUInt32

/-- The 64-bit number with the given high and low half. -/
def toUInt64 (high low : UInt32) : UInt64 :=
  high.toUInt64 * 4294967296 + low.toUInt64

/-- The number that the two bytes of `n` make up is `n`. -/
theorem toUInt16_ofUInt16 (n : UInt16) : toUInt16 (n / 256).toUInt8 n.toUInt8 = n := by
  apply UInt16.toNat_inj.1
  have := n.toNat_lt
  simp only [toUInt16, UInt16.toNat_add, UInt16.toNat_mul, UInt8.toNat_toUInt16,
    UInt16.toNat_toUInt8, UInt16.toNat_div, UInt16.reduceToNat]
  omega

/-- The number that the two halves of `n` make up is `n`. -/
theorem toUInt32_ofUInt32 (n : UInt32) : toUInt32 (n / 65536).toUInt16 n.toUInt16 = n := by
  apply UInt32.toNat_inj.1
  have := n.toNat_lt
  simp only [toUInt32, UInt32.toNat_add, UInt32.toNat_mul, UInt16.toNat_toUInt32,
    UInt32.toNat_toUInt16, UInt32.toNat_div, UInt32.reduceToNat]
  omega

/-- The number that the two halves of `n` make up is `n`. -/
theorem toUInt64_ofUInt64 (n : UInt64) : toUInt64 (n / 4294967296).toUInt32 n.toUInt32 = n := by
  apply UInt64.toNat_inj.1
  have := n.toNat_lt
  simp only [toUInt64, UInt64.toNat_add, UInt64.toNat_mul, UInt32.toNat_toUInt64,
    UInt64.toNat_toUInt32, UInt64.toNat_div, UInt64.reduceToNat]
  omega

@[simp] theorem length_ofUInt16 (n : UInt16) : (ofUInt16 n).length = 2 := rfl

@[simp] theorem length_ofUInt32 (n : UInt32) : (ofUInt32 n).length = 4 := rfl

@[simp] theorem length_ofUInt64 (n : UInt64) : (ofUInt64 n).length = 8 := rfl

/-! ## Counted lists -/

/-- A count in front of the items that follow it. It has sixteen bits, so a longer list is
announced by its length modulo 65536. -/
def count (n : Nat) : Bytes :=
  ofUInt16 (UInt16.ofNat n)

/-- A list: how many items there are, and then the items. -/
def counted (write : α → Bytes) (items : List α) : Bytes :=
  count items.length ++ items.flatMap write

end Bytes

end Crosswalk
