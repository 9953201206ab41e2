/-! Binary64 numbers as exact integers. Every finite one is a whole multiple of the least positive
one, 2^-1074, so that a sign and a natural number hold it, order is the order of integers, and every
operation is exact arithmetic followed by one rounding. -/

namespace Catalog.Number

/-- A binary64 number other than NaN: its sign, and its magnitude in units of 2^-1074. -/
structure Double where
  negative : Bool
  units : Nat
deriving DecidableEq, Repr, Inhabited

namespace Double

/-- The units in one. -/
def one : Nat := Nat.pow 2 1074

/-- The first magnitude past the finite ones. It stands for infinity. -/
def limit : Nat := Nat.pow 2 2098

/-- The number is not infinite. -/
def isFinite (x : Double) : Bool := x.units < limit

/-- The distance from a magnitude to the next larger one: 53 binary digits are kept. -/
def spacing (units : Nat) : Nat := Nat.pow 2 (units.log2 - 52)

/-- The quotient rounded to the nearest natural number, a tie to the even one. -/
def roundQuotient (num den : Nat) : Nat :=
  let q := num / den
  let r := num % den
  if 2 * r < den then q else if den < 2 * r then q + 1 else q + q % 2

/-- The magnitude nearest to `num / den`, a tie to the one with an even last binary digit. -/
def nearest (num den : Nat) : Nat :=
  let step := spacing (num * one / den)
  min (roundQuotient (num * one) (den * step) * step) limit

/-- The number nearest to `num / den` with the given sign. -/
def ofRatio (negative : Bool) (num den : Nat) : Double := ⟨negative, nearest num den⟩

/-- The number nearest to an integer. -/
def ofInt (n : Int) : Double := ofRatio (n < 0) n.natAbs 1

/-- The product of finite numbers, rounded once. -/
def mul (x y : Double) : Double :=
  ofRatio (x.negative != y.negative) (x.units * y.units) (one * one)

/-- The quotient of finite numbers, rounded once. -/
def div (x y : Double) : Double := ofRatio (x.negative != y.negative) x.units y.units

/-- The number with the other sign. -/
def neg (x : Double) : Double := { x with negative := !x.negative }

/-- The value in units, as a signed integer. -/
def toInt (x : Double) : Int := if x.negative then -(x.units : Int) else x.units

/-- The number has no fractional part. -/
def isWhole (x : Double) : Bool := x.isFinite && x.units % one == 0

/-- The 64 bits of the number: sign, exponent, fraction. -/
def toBits (x : Double) : Nat :=
  let shift := x.units.log2 - 52
  (if x.negative then Nat.pow 2 63 else 0) + shift * Nat.pow 2 52 + x.units / Nat.pow 2 shift

/-- The number that 64 bits stand for, unless they are a NaN. -/
def ofBits? (bits : Nat) : Option Double :=
  let exponent := bits / Nat.pow 2 52 % 2048
  let fraction := bits % Nat.pow 2 52
  let negative := bits / Nat.pow 2 63 % 2 == 1
  if exponent = 0 then some ⟨negative, fraction⟩
  else if exponent = 2047 ∧ fraction ≠ 0 then none
  else some ⟨negative, (Nat.pow 2 52 + fraction) * Nat.pow 2 (exponent - 1)⟩

example : toBits (ofInt 5) = 0x4014000000000000 := by decide +kernel
example : toBits ⟨true, limit⟩ = 0xFFF0000000000000 := by decide +kernel

end Double

end Catalog.Number
