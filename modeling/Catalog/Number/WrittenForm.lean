import Catalog.Number.Shortest

/-! How the shortest digits of a number are laid out as text. -/

namespace Catalog.Number

/-- The decisions of a written form of numbers. -/
structure WrittenForm where
  /-- Which of two equally close shortest decimals is written. -/
  tie : Tie
  /-- What follows the digits of a number without a fraction. -/
  wholeEnding : List Char
  /-- Whether a first digit worth `10 ^ e` is written in its place, rather than before an exponent. -/
  inPlace : Int → Bool

namespace WrittenForm

/-- Digits in their places: the value is `digits * 10 ^ exponent`. -/
def positional (form : WrittenForm) (digits : List Char) (exponent : Int) : List Char :=
  if 0 ≤ exponent then digits ++ List.replicate exponent.toNat '0' ++ form.wholeEnding
  else
    let places := (-exponent).toNat
    if places < digits.length then
      digits.take (digits.length - places) ++ '.' :: digits.drop (digits.length - places)
    else '0' :: '.' :: List.replicate (places - digits.length) '0' ++ digits

/-- One digit, the others after a point, and the exponent of the first with its sign. -/
def scientific (digits : List Char) (leading : Int) : List Char :=
  let sign := if leading < 0 then '-' else '+'
  let fraction := match digits.drop 1 with
    | [] => []
    | rest => '.' :: rest
  digits.take 1 ++ fraction ++ 'e' :: sign :: Nat.toDigits 10 leading.natAbs

/-- The written form of a positive magnitude. -/
def magnitude (form : WrittenForm) (units : Nat) : List Char :=
  let (d, exponent) := Shortest.digits form.tie units
  let digits := Nat.toDigits 10 d
  let leading := exponent + digits.length - 1
  if form.inPlace leading then form.positional digits exponent else scientific digits leading

/-- The written form of a number. -/
def write (form : WrittenForm) (x : Double) : List Char :=
  let unsigned :=
    if !x.isFinite then ['i', 'n', 'f']
    else if x.units = 0 then '0' :: form.wholeEnding
    else form.magnitude x.units
  if x.negative then '-' :: unsigned else unsigned

end WrittenForm

/-- The plain form: every digit in its place, never an exponent, no point without a fraction. -/
def plain : WrittenForm where
  tie := .up
  wholeEnding := []
  inPlace := fun _ => true

/-- The form of numbers in JSON text: digits in their places from `0.00001` to below `10 ^ 16`, a
fraction in all of these, and a signed exponent otherwise. -/
def inJson : WrittenForm where
  tie := .even
  wholeEnding := ['.', '0']
  inPlace := fun leading => -5 ≤ leading && leading < 16

/-- The decimal text of an integer. -/
def integerText (n : Int) : List Char :=
  if n < 0 then '-' :: Nat.toDigits 10 n.natAbs else Nat.toDigits 10 n.natAbs

end Catalog.Number
