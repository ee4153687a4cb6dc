import Crosswalk.Decimal.Shortest

/-!
# Decimal notation

How the digits of a number are laid out: with the point in place while the number is of ordinary
size, and with a power of ten otherwise. `Layout.messages` is the layout of the messages of this
library.
-/

namespace Crosswalk.Decimal

/-- The choices of a layout. A number whose leading digit counts `10 ^ s` has its point in place
when `least ≤ s` and `s < top`. -/
structure Layout where
  least : Int
  top : Int
  /-- What follows a whole number. -/
  wholeMark : String
  nan : String
  infinite : String

/-- Numbers from 0.0001 to below 10^16 have their point in place, and whole ones end in ".0". -/
def Layout.messages : Layout :=
  ⟨-4, 16, ".0", "NaN", "inf"⟩

namespace Layout

/-- The digits of a number without the zeros at its end. -/
def significant (x : Scaled) : List Char :=
  (((Nat.toDigits 10 x.digits).reverse.dropWhile (· = '0')).reverse)

/-- A positive number. -/
def positive (layout : Layout) (x : Scaled) : String :=
  let all := Nat.toDigits 10 x.digits
  let digits := significant x
  let scale : Int := x.exponent + all.length - 1
  if layout.least ≤ scale ∧ scale < layout.top then
    if scale < 0 then
      "0." ++ String.ofList (List.replicate (-scale - 1).toNat '0' ++ digits)
    else
      let whole := scale.toNat + 1
      if digits.length ≤ whole then
        String.ofList (digits ++ List.replicate (whole - digits.length) '0') ++ layout.wholeMark
      else
        String.ofList (digits.take whole) ++ "." ++ String.ofList (digits.drop whole)
  else
    let lead := String.ofList (digits.take 1)
    let tail := digits.drop 1
    let mantissa := if tail.isEmpty then lead else lead ++ "." ++ String.ofList tail
    mantissa ++ "e" ++ toString scale

/-- A number with its sign. A NaN has none. -/
def render (layout : Layout) (negative : Bool) (m : Magnitude) : String :=
  let signed (s : String) := if negative then "-" ++ s else s
  match m with
  | .nan => layout.nan
  | .infinite => signed layout.infinite
  | .finite 0 _ _ => signed ("0" ++ layout.wholeMark)
  | .finite mantissa exponent lowerEdge =>
    signed (layout.positive (shortest mantissa exponent lowerEdge))

end Layout

end Crosswalk.Decimal

namespace Crosswalk

/-- The text of a 32-bit number in a message. -/
def Binary32.text (x : Binary32) : String :=
  Decimal.Layout.messages.render x.negative x.magnitude

/-- The text of a 64-bit number in a message. -/
def Binary64.text (x : Binary64) : String :=
  Decimal.Layout.messages.render x.negative x.magnitude

end Crosswalk
