import Crosswalk.Decimal.Binary

/-!
# The shortest decimal that reads back

A finite value stands for all reals that round to it, an interval that contains its ends just when
the mantissa is even. The text of the value is the point of the interval on the coarsest decimal
grid that has one: that point has the fewest digits. Where both neighbours of the value on that
grid lie in the interval the nearer one is taken, and of two equally near the upper one.
-/

namespace Crosswalk.Decimal

/-- The number `digits * 10 ^ exponent`. -/
structure Scaled where
  digits : Nat
  exponent : Int
  deriving DecidableEq, Repr

/-- A value and the ends of the interval that rounds to it, each over the same `unit`. -/
structure Rounding where
  low : Nat
  value : Nat
  high : Nat
  unit : Nat
  /-- Whether the ends round to the value too. -/
  closed : Bool

namespace Rounding

/-- The interval of `mantissa * 2 ^ exponent`, counted in quarters of `2 ^ exponent`. -/
def ofBinary (mantissa : Nat) (exponent : Int) (lowerEdge : Bool) : Rounding :=
  let up := Nat.pow 2 (exponent - 2).toNat
  { low := (4 * mantissa - (if lowerEdge then 1 else 2)) * up
    value := 4 * mantissa * up
    high := (4 * mantissa + 2) * up
    unit := Nat.pow 2 (2 - exponent).toNat
    closed := mantissa % 2 = 0 }

/-- The same interval counted in steps of `10 ^ exponent`. -/
def onGrid (r : Rounding) (exponent : Int) : Rounding :=
  let up := Nat.pow 10 (-exponent).toNat
  { r with
    low := r.low * up
    value := r.value * up
    high := r.high * up
    unit := r.unit * Nat.pow 10 exponent.toNat }

/-- Whether a point at or below the value lies in the interval. -/
def reachesDown (r : Rounding) (point : Nat) : Bool :=
  if r.closed then r.low ≤ point * r.unit else r.low < point * r.unit

/-- Whether a point above the value lies in the interval. -/
def reachesUp (r : Rounding) (point : Nat) : Bool :=
  if r.closed then point * r.unit ≤ r.high else point * r.unit < r.high

/-- The grid point to write for the value, if the interval holds one. -/
def gridPoint? (r : Rounding) : Option Nat :=
  let below := r.value / r.unit
  let isDown := r.reachesDown below
  let isUp := r.reachesUp (below + 1)
  if isDown && isUp then
    some (if 2 * (r.value % r.unit) < r.unit then below else below + 1)
  else if isDown then
    some below
  else if isUp then
    some (below + 1)
  else
    none

/-- Tries the grids from `10 ^ (start - 1)` downwards, `n` of them. -/
def search (r : Rounding) (start : Int) : Nat → Scaled
  | 0 => ⟨0, 0⟩
  | n + 1 =>
    match (r.onGrid (start - 1)).gridPoint? with
    | some point => ⟨point, start - 1⟩
    | none => r.search (start - 1) n

end Rounding

/-- The shortest decimal that reads back as a positive `mantissa * 2 ^ exponent`. No value of the
two formats reaches `10 ^ 309`, and every one has a neighbour on the grid of `10 ^ (-343)`. -/
def shortest (mantissa : Nat) (exponent : Int) (lowerEdge : Bool) : Scaled :=
  (Rounding.ofBinary mantissa exponent lowerEdge).search 310 653

end Crosswalk.Decimal
