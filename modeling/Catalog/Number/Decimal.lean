import Catalog.Number.Double
import Catalog.Text.Ascii

/-! Decimal numbers: the grammar of their texts, and the nearest binary64 number. -/

namespace Catalog.Number

open Catalog.Text

/-- The decimal `digits * 10 ^ exponent` with a sign. -/
structure Decimal where
  negative : Bool
  digits : Nat
  exponent : Int
deriving DecidableEq, Repr

namespace Decimal

/-- The number of decimal digits, at least one. -/
def digitCount (n : Nat) : Nat := (Nat.toDigits 10 n).length

/-- The nearest binary64 number. A decimal far outside the range is settled by the place of its first
digit, so that no huge power is computed. -/
def toDouble (d : Decimal) : Double :=
  let leading := (digitCount d.digits : Int) + d.exponent
  if d.digits = 0 ∨ leading < -400 then ⟨d.negative, 0⟩
  else if 400 < leading then ⟨d.negative, Double.limit⟩
  else Double.ofRatio d.negative (d.digits * Nat.pow 10 d.exponent.toNat)
    (Nat.pow 10 (-d.exponent).toNat)

/-- The sign in front of a number, and the rest. -/
def takeSign : List Char → Bool × List Char
  | '-' :: rest => (true, rest)
  | '+' :: rest => (false, rest)
  | s => (false, s)

/-- The text after `e` or `E` up to the end: a sign, if any, and digits. -/
def exponent? : List Char → Option Int
  | [] => some 0
  | c :: rest =>
    let (negative, digits) := takeSign rest
    if (c == 'e' || c == 'E') && !digits.isEmpty && digits.all Char.isDigit then
      some (if negative then -(digitsValue digits : Int) else digitsValue digits)
    else none

/-- The digits after the point, if the text goes on with one, and the rest. -/
def takeFraction : List Char → List Char × List Char
  | '.' :: rest => (rest.takeWhile Char.isDigit, rest.dropWhile Char.isDigit)
  | s => ([], s)

/-- Reads a whole text as a decimal: a sign, digits with a point before, among or after them, and an
exponent. Of these only one digit is required. -/
def read? (s : List Char) : Option Decimal :=
  let (negative, unsigned) := takeSign s
  let whole := unsigned.takeWhile Char.isDigit
  let (fraction, rest) := takeFraction (unsigned.dropWhile Char.isDigit)
  if whole.isEmpty && fraction.isEmpty then none
  else
    (exponent? rest).map fun e =>
      ⟨negative, digitsValue (whole ++ fraction), e - fraction.length⟩

end Decimal

/-- Reads a text as a finite binary64 number: the one nearest to the decimal it writes. -/
def Double.read? (s : List Char) : Option Double :=
  ((Decimal.read? s).map Decimal.toDouble).filter Double.isFinite

end Catalog.Number
