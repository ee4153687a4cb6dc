/-!
# Binary floating point

The constants of a class file hold numbers in two binary formats of 32 and of 64 bits. They are
carried as their bits, so the payload of a NaN survives; `Magnitude` is what the bits stand for.
-/

namespace Crosswalk

/-- The bits of a number in the 32-bit format. -/
structure Binary32 where
  bits : UInt32
  deriving DecidableEq, Repr, Inhabited

/-- The bits of a number in the 64-bit format. -/
structure Binary64 where
  bits : UInt64
  deriving DecidableEq, Repr, Inhabited

/-- The value without its sign. -/
inductive Magnitude
  | nan
  | infinite
  /-- The value is `mantissa * 2 ^ exponent`. At a power of two that is not the smallest one of the
  format the next value below is only half as far as the next one above, which `lowerEdge` marks. -/
  | finite (mantissa : Nat) (exponent : Int) (lowerEdge : Bool)
  deriving DecidableEq, Repr

namespace Magnitude

/-- Decodes the exponent and fraction field of a format with `width` fraction bits, whose largest
exponent field is `top`. The smallest exponent is `least`. -/
def ofFields (width top : Nat) (least : Int) (exponent fraction : Nat) : Magnitude :=
  if exponent = top then
    if fraction = 0 then infinite else nan
  else if exponent = 0 then
    finite fraction least false
  else
    finite (Nat.pow 2 width + fraction) (least + exponent - 1) (fraction = 0 && exponent ≠ 1)

end Magnitude

namespace Binary32

/-- Whether the sign bit is set. -/
def negative (x : Binary32) : Bool :=
  0x80000000 ≤ x.bits

/-- The value without its sign. -/
def magnitude (x : Binary32) : Magnitude :=
  let n := x.bits.toNat
  Magnitude.ofFields 23 255 (-149) (n / Nat.pow 2 23 % 256) (n % Nat.pow 2 23)

end Binary32

namespace Binary64

/-- Whether the sign bit is set. -/
def negative (x : Binary64) : Bool :=
  0x8000000000000000 ≤ x.bits

/-- The value without its sign. -/
def magnitude (x : Binary64) : Magnitude :=
  let n := x.bits.toNat
  Magnitude.ofFields 52 2047 (-1074) (n / Nat.pow 2 52 % 2048) (n % Nat.pow 2 52)

end Binary64

/-- One is one. -/
example :
    (Binary32.mk 0x3F800000).magnitude = .finite (Nat.pow 2 23) (-23) true :=
  rfl

end Crosswalk
