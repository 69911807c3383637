import Formulary.Number.Binary64

/-!
The shortest decimal that rounds to a given binary64 number. The reals that round to a number form
an interval; the coarsest grid of multiples of a power of ten with a point in it gives the fewest
digits, and of its points the nearer neighbour of the number is taken.
-/
namespace Formulary

/-- The value `digits · 10 ^ exponent`. -/
structure Decimal where
  digits : Nat
  exponent : Int
deriving DecidableEq, Repr, Inhabited

namespace Binary64

/-- The reals that round to a count of units, in quarters of a unit. -/
structure Interval where
  low : Nat
  middle : Nat
  high : Nat
  closed : Bool

/-- Half a step on each side, but a quarter below a power of two, where the steps get smaller. -/
def interval (units : Nat) : Interval :=
  let step := spacing units
  let below := if units = twoPow 52 * step && decide (1 < step) then step else 2 * step
  { low := 4 * units - below
    middle := 4 * units
    high := 4 * units + 2 * step
    closed := (units / step) % 2 == 0 }

/-- Whether `point / scale` lies inside. -/
def Interval.holds (i : Interval) (scale point : Nat) : Bool :=
  if i.closed then i.low * scale ≤ point && point ≤ i.high * scale
  else i.low * scale < point && point < i.high * scale

/-- The point of the grid of multiples of `10 ^ exponent` that lies inside and is nearest to the
middle; at equal distance the even multiple is taken. -/
def Interval.gridPoint? (i : Interval) (exponent : Int) : Option Decimal :=
  let scale := tenPow (-exponent).toNat
  let cell := tenPow exponent.toNat * (4 * one)
  let middle := i.middle * scale
  let floor := middle / cell
  let inside (n : Nat) : Bool := i.holds scale (n * cell)
  let nearer :=
    let below := middle - floor * cell
    let above := (floor + 1) * cell - middle
    if below < above then floor
    else if above < below then floor + 1
    else floor + floor % 2
  if inside nearer then some ⟨nearer, exponent⟩
  else if inside floor then some ⟨floor, exponent⟩
  else if inside (floor + 1) then some ⟨floor + 1, exponent⟩
  else none

/-- The search starts on a grid coarser than the number itself and needs seventeen digits at most.
The logarithm of two to base ten lies below 30103 / 100000. -/
def shortest (units : Nat) : Decimal :=
  let i := interval units
  let top : Int := ((bitLength units : Int) - 1074) * 30103 / 100000 + 2
  ((List.range 24).findSome? fun (n : Nat) => i.gridPoint? (top - n)).getD ⟨units, 0⟩

end Binary64
end Formulary
