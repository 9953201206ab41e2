/-! Images as planes of brightness values, and small copies of them. A small copy weighs the pixels
around each place by a triangle as wide as two of its own pixels, in 32-bit arithmetic, first down the
columns and then along the rows. -/

namespace Catalog.Media

/-- One plane of an image: rows from top to bottom, each of `width` values. -/
structure Raster where
  width : Nat
  height : Nat
  rows : List (List UInt8)
deriving DecidableEq, Repr, Inhabited

/-- The rows of a list of values, `count` of them. -/
def rowsOf (width : Nat) : (count : Nat) → List UInt8 → List (List UInt8)
  | 0, _ => []
  | count + 1, values => values.take width :: rowsOf width count (values.drop width)

/-- The plane with the given values, row by row. -/
def Raster.ofValues (width height : Nat) (values : List UInt8) : Raster :=
  ⟨width, height, rowsOf width height values⟩

namespace Scaling

/-- The source positions from `first` on that make one position of the copy, with their weights. -/
structure Window where
  first : Nat
  weights : List Float32

/-- The whole number at or below a value that is not negative, zero below zero. -/
def wholePart (x : Float32) : Nat := if x < 0 then 0 else x.toUInt64.toNat

/-- The weight of a source position at some distance from the centre, in units of the support. -/
def triangle (x : Float32) : Float32 :=
  let distance := x.abs
  if distance < 1 then 1 - distance else 0

/-- The window of a position when `length` positions become `target`. -/
def window (length target : Nat) (position : Nat) : Window :=
  let ratio := Float32.ofNat length / Float32.ofNat target
  let support := if ratio < 1 then 1 else ratio
  let centre := (Float32.ofNat position + 0.5) * ratio
  let left := min (wholePart (centre - support).floor) (length - 1)
  let right := min (max (wholePart (centre + support).ceil) (left + 1)) length
  let weights := (List.range (right - left)).map fun i =>
    triangle ((Float32.ofNat (left + i) - (centre - 0.5)) / support)
  let sum := weights.foldl (· + ·) 0
  ⟨left, weights.map (· / sum)⟩

/-- The windows of all positions of a copy. -/
def windows (length target : Nat) : List Window := (List.range target).map (window length target)

/-- The weighted sum of the values in a window. -/
def blend (values : List Float32) (w : Window) : Float32 :=
  (List.zipWith (· * ·) (values.drop w.first) w.weights).foldl (· + ·) 0

/-- The weighted sum of the rows in a window, value by value. -/
def blendRows (width : Nat) (rows : List (List Float32)) (w : Window) : List Float32 :=
  (List.zip (rows.drop w.first) w.weights).foldl
    (fun sums (row, weight) => List.zipWith (fun sum value => sum + value * weight) sums row)
    (List.replicate width 0)

/-- The value as a brightness: within 0 and 255, and rounded, halves away from zero. -/
def brightness (x : Float32) : UInt8 :=
  let bounded := if x < 0 then 0 else if 255 < x then 255 else x
  bounded.round.toUInt8

end Scaling

open Scaling in
/-- The copy of a plane in the given size. An empty plane has a copy of zeros. -/
def Raster.resize (image : Raster) (width height : Nat) : Raster :=
  if image.width = width ∧ image.height = height then image
  else if image.width = 0 ∨ image.height = 0 then
    ⟨width, height, List.replicate height (List.replicate width 0)⟩
  else
    let rows := image.rows.map fun row => row.map fun value => Float32.ofNat value.toNat
    let tall := (windows image.height height).map (blendRows image.width rows)
    let along := windows image.width width
    ⟨width, height, tall.map fun row => along.map fun w => brightness (blend row w)⟩

end Catalog.Media
