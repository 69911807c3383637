/-!
IEEE 754 binary64 numbers as exact values. A finite number is a sign and a whole count of the least
positive number, 2^-1074, so that a value has one form only and rounding is a single division.
-/
namespace Formulary

inductive Binary64 where
  | finite (negative : Bool) (units : Nat)
  | infinite (negative : Bool)
  | nan
deriving DecidableEq, Repr, Inhabited

def twoPow (n : Nat) : Nat := Nat.pow 2 n

def tenPow (n : Nat) : Nat := Nat.pow 10 n

namespace Binary64

/-- The count of units in one. -/
def one : Nat := twoPow 1074

/-- The first count too large for a finite number. -/
def bound : Nat := twoPow 1024 * one

/-- The quotient rounded to the nearest whole number, a half to the even neighbour. -/
def nearestEven (numerator denominator : Nat) : Nat :=
  let quotient := numerator / denominator
  let twice := 2 * (numerator % denominator)
  if twice < denominator then quotient
  else if denominator < twice then quotient + 1
  else quotient + quotient % 2

theorem nearestEven_mul (n d : Nat) (h : 0 < d) : nearestEven (n * d) d = n := by
  simp [nearestEven, Nat.mul_div_cancel n h, h]

/-- The number of binary digits of a positive number. -/
def bitLength (n : Nat) : Nat :=
  if n = 0 then 0 else n.log2 + 1

/-- The distance between neighbouring numbers at a count of units: 53 binary digits are kept. -/
def spacing (units : Nat) : Nat := twoPow (bitLength units - 53)

/-- The number nearest to a quotient, a half going to the even neighbour. -/
def ofRatio (negative : Bool) (numerator denominator : Nat) : Binary64 :=
  let scaled := numerator * one
  let step := spacing (scaled / denominator)
  let units := nearestEven scaled (denominator * step) * step
  if units < bound then .finite negative units else .infinite negative

/-- The number nearest to `digits · 10 ^ exponent`. -/
def ofDecimal (negative : Bool) (digits : Nat) (exponent : Int) : Binary64 :=
  ofRatio negative (digits * tenPow exponent.toNat) (tenPow (-exponent).toNat)

/-- Equality of values: the two zeros are equal, and nan differs from everything. -/
def sameValue : Binary64 → Binary64 → Bool
  | .finite s a, .finite t b => a == b && (s == t || a == 0)
  | .infinite s, .infinite t => s == t
  | _, _ => false

/-- Whether the number is exactly the given whole number. -/
def isInteger (x : Binary64) (n : Int) : Bool :=
  match x with
  | .finite negative units => units == n.natAbs * one && (negative == decide (n < 0) || units == 0)
  | _ => false

end Binary64
end Formulary
