import Catalog.Media.Bitmap
import Catalog.Order.Total
import Catalog.Text.Hex

/-! Fingerprints of images: perceptual hashes of 64 bits, one bit for each of 64 cells of a thumbnail. -/

namespace Catalog.Media

/-- An image with one plane of brightness or three of colour. -/
inductive Image where
  | grey (plane : Raster)
  | colour (bitmap : Bitmap)

namespace Image

/-- The brightness of a colour: a weighted mean, rounded down. -/
def luminance (red green blue : UInt8) : UInt8 :=
  UInt8.ofNat ((2126 * red.toNat + 7152 * green.toNat + 722 * blue.toNat) / 10000)

/-- The brightness of a copy of the image in the given size. -/
def thumbnail (image : Image) (width height : Nat) : List (List UInt8) :=
  match image with
  | grey plane => (plane.resize width height).rows
  | colour bitmap =>
    let reds := (bitmap.red.resize width height).rows
    let greens := (bitmap.green.resize width height).rows
    let blues := (bitmap.blue.resize width height).rows
    List.zipWith (fun row (greens, blues) =>
      List.zipWith (fun red (green, blue) => luminance red green blue) row (greens.zip blues))
      reds (greens.zip blues)

end Image

/-- A number with the given binary digits, the first one the highest. -/
def ofBits (bits : List Bool) : Nat := bits.foldl (fun n bit => 2 * n + bit.toNat) 0

/-- For each cell of a thumbnail of eight rows of eight, row by row, whether it is brighter than the
mean, which is rounded down. -/
def brighterCells (image : Image) : List Bool :=
  let cells := (image.thumbnail 8 8).flatten
  let mean := Order.total (cells.map UInt8.toNat) / cells.length
  cells.map fun cell => mean < cell.toNat

/-- For each neighbour in a row whether the left one is brighter. -/
def falling (row : List UInt8) : List Bool :=
  List.zipWith (fun left right => decide (right < left)) row (row.drop 1)

/-- For each pair of neighbours in a thumbnail of eight rows of nine, row by row, whether the left one
is brighter. -/
def fallingPairs (image : Image) : List Bool := (image.thumbnail 9 8).flatMap falling

/-- The text of a fingerprint: sixteen hexadecimal digits. -/
def fingerprintText (bits : List Bool) : String := String.ofList (Text.hexDigits 16 (ofBits bits))

/-- The names of the fingerprints of an image with their texts, in order of the names. -/
def fingerprints (image : Image) : List (String × String) :=
  let average := fingerprintText (brighterCells image)
  let difference := fingerprintText (fallingPairs image)
  [("ahash", average), ("dhash", difference), ("phash", difference)]

end Catalog.Media
