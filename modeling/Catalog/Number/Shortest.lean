import Catalog.Number.Decimal

/-! The fewest decimal digits that still tell a binary64 number from its neighbours. -/

namespace Catalog.Number

/-- Which of two decimals of one length is taken if both are equally close. -/
inductive Tie where
  | even
  | up
deriving DecidableEq, Repr

namespace Shortest

/-- All comparisons are made on naturals: lengths on the number line are counted in pieces of
`2^-1076 * 10^-400`, of which a unit holds this many. -/
def piecesPerUnit : Nat := 4 * Nat.pow 10 400

/-- The pieces in `10 ^ exponent`, for an exponent from -400. -/
def piecesInPower (exponent : Int) : Nat := 4 * Double.one * Nat.pow 10 (exponent + 400).toNat

/-- The distance from a magnitude to the one below, in quarters of the distance to the one above: it
is half as large below a power of two. -/
def quartersBelow (units : Nat) : Nat :=
  if units = Nat.pow 2 units.log2 ∧ Nat.pow 2 53 ≤ units then 2 else 4

/-- The place in pieces lies among the reals that round to the magnitude: no further than halfway to
a neighbour, the halfway points included if the last binary digit is even. -/
def readsBack (units place : Nat) : Bool :=
  let step := Double.spacing units
  let quarter := step * Nat.pow 10 400
  let low := units * piecesPerUnit - quartersBelow units / 2 * quarter
  let high := units * piecesPerUnit + 2 * quarter
  if units / step % 2 = 0 then low ≤ place && place ≤ high else low < place && place < high

/-- The least exponent `k` with the magnitude below `10 ^ k`. -/
def scale (units : Nat) : Int :=
  (Decimal.digitCount (units * Nat.pow 10 400 / Double.one) : Int) - 400

/-- Of the two multiples of `10 ^ exponent` next to the magnitude the closer one that reads back. -/
def onGrid? (tie : Tie) (units : Nat) (exponent : Int) : Option Nat :=
  let place := units * piecesPerUnit
  let grid := piecesInPower exponent
  let below := place / grid
  let lowFits := readsBack units (below * grid)
  let highFits := readsBack units ((below + 1) * grid)
  let twiceOver := 2 * (place % grid)
  if lowFits && highFits then
    some <| if twiceOver < grid then below
      else if grid < twiceOver then below + 1
      else match tie with
        | .even => below + below % 2
        | .up => below + 1
  else if lowFits then some below
  else if highFits then some (below + 1)
  else none

/-- The decimal without the zeros at the end of its digits, of which there are at most `most`. -/
def stripZeros : (most : Nat) → Nat → Int → Nat × Int
  | 0, digits, exponent => (digits, exponent)
  | most + 1, digits, exponent =>
    if digits % 10 = 0 then stripZeros most (digits / 10) (exponent + 1) else (digits, exponent)

/-- The digits and exponent of the shortest decimal that reads back to a positive magnitude. Seventeen
digits always do; the exact value stands after them so that the function needs no proof of it. -/
def digits (tie : Tie) (units : Nat) : Nat × Int :=
  let k := scale units
  let found := (List.range 17).findSome? fun (n : Nat) =>
    let exponent := k - (n + 1)
    (onGrid? tie units exponent).map fun d => (d, exponent)
  let (d, exponent) := found.getD (units * Nat.pow 5 1074, -1074)
  stripZeros 20 d exponent

end Shortest

end Catalog.Number
