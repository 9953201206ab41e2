import Catalog.Json.Syntax
import Catalog.Number.Double

/-! What a number in JSON text stands for: an integer of 64 bits if it is written as one and fits,
otherwise a binary64 number. The latter is computed from the digits that fit a word of 64 bits by one
multiplication or by divisions, and so is not always the one nearest to what is written. -/

namespace Catalog.Json

open Catalog.Number Catalog.Text

/-- A number of a document. -/
inductive Number where
  | integer (value : Int)
  | double (value : Double)
deriving DecidableEq, Repr

namespace Number

/-- The number is zero. -/
def isZero : Number → Bool
  | .integer value => value == 0
  | .double value => value.units == 0

/-- Appends digits to a number as long as it stays below 2^64. The result is the number and the
digits left over. -/
def accumulate (significand : Nat) : List Char → Nat × List Char
  | [] => (significand, [])
  | c :: rest =>
    let next := 10 * significand + (c.toNat - '0'.toNat)
    if next < Nat.pow 2 64 then accumulate next rest else (significand, c :: rest)

/-- The power of ten as a binary64 number. -/
def powerOfTen (exponent : Nat) : Double := Double.ofRatio false (Nat.pow 10 exponent) 1

/-- Divides by a power of ten in steps of at most 308 powers. -/
def scaleDown : (steps : Nat) → Double → Nat → Double
  | 0, x, _ => x
  | steps + 1, x, exponent =>
    if exponent ≤ 308 then x.div (powerOfTen exponent)
    else if x.units = 0 then x
    else scaleDown steps (x.div (powerOfTen 308)) (exponent - 308)

/-- The significand times a power of ten. An infinite result is refused. -/
def scale? (significand : Nat) (exponent : Int) : Option Double :=
  let x := Double.ofRatio false significand 1
  if exponent < 0 then
    let places := (-exponent).toNat
    some (scaleDown (places / 308 + 1) x places)
  else if x.units = 0 then some x
  else if exponent ≤ 308 then
    let y := x.mul (powerOfTen exponent.toNat)
    if y.isFinite then some y else none
  else none

/-- The exponent that is written after the mark; its size is bounded like a word of 32 bits. -/
def exponentValue? (negative : Bool) (digits : List Char) : Option Int :=
  let value := digitsValue digits
  if value < Nat.pow 2 31 then some (if negative then -(value : Int) else value) else none

/-- The binary64 number of a numeral that is not an integer that fits. -/
def double? (numeral : Numeral) : Option Double :=
  let (significand, dropped) := accumulate 0 numeral.whole
  let (significand', unread) := accumulate significand numeral.fraction
  let start : Int := (dropped.length : Int) - (numeral.fraction.length - unread.length : Nat)
  let magnitude : Option Double :=
    match numeral.exponent with
    | none => scale? significand' start
    | some (negative, digits) =>
      match exponentValue? negative digits with
      | some exponent => scale? significand' (start + exponent)
      | none => if significand' ≠ 0 ∧ !negative then none else some ⟨false, 0⟩
  magnitude.map fun x => { x with negative := numeral.negative }

/-- The number that a numeral stands for; a numeral out of range stands for none. -/
def ofNumeral? (numeral : Numeral) : Option Number :=
  let whole := digitsValue numeral.whole
  if numeral.fraction.isEmpty && numeral.exponent.isNone && whole < Nat.pow 2 64 then
    if !numeral.negative then some (.integer whole)
    else if 0 < whole ∧ whole ≤ Nat.pow 2 63 then some (.integer (-(whole : Int)))
    else some (.double (Double.ofRatio true whole 1))
  else (double? numeral).map .double

end Number

end Catalog.Json
