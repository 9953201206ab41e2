import Catalog.Media.Raster

/-! Bitmap files: uncompressed images of 24 bits a pixel, rows from the bottom up. They stand for all formats
of images; nothing that is proved of stored files depends on which ones are decoded. -/

namespace Catalog.Media

/-- An image of three planes. -/
structure Bitmap where
  red : Raster
  green : Raster
  blue : Raster
deriving DecidableEq, Repr

namespace Bitmap

/-- The number that `count` bytes at a place write, the first byte the lowest. -/
def number? (bytes : List UInt8) (offset : Nat) (count : Nat) : Option Nat :=
  let field := (bytes.drop offset).take count
  if field.length < count then none
  else some (field.foldr (fun byte n => byte.toNat + 256 * n) 0)

/-- The blue, green and red values of the pixels of a row. -/
def pixels : List UInt8 → List (UInt8 × UInt8 × UInt8)
  | b :: g :: r :: rest => (b, g, r) :: pixels rest
  | _ => []

/-- The rows of the image data, each filled up to a multiple of four bytes, `count` of them. A row that
is not there makes it no image. -/
def rows? (width : Nat) : (count : Nat) → List UInt8 → Option (List (List (UInt8 × UInt8 × UInt8)))
  | 0, _ => some []
  | count + 1, data =>
    let stride := (3 * width + 3) / 4 * 4
    if data.length < stride then none
    else
      (rows? width count (data.drop stride)).map (pixels (data.take (3 * width)) :: ·)

/-- The most pixels along a side that a header can give; a height beyond is one of rows from the top. -/
def mostPixels : Nat := Nat.pow 2 31 - 1

/-- Reads a bitmap file. -/
def read? (bytes : List UInt8) : Option Bitmap := do
  let start ← number? bytes 10 4
  let headerSize ← number? bytes 14 4
  let width ← number? bytes 18 4
  let height ← number? bytes 22 4
  let depth ← number? bytes 28 2
  let compression ← number? bytes 30 4
  if bytes.take 2 ≠ [0x42, 0x4D] ∨ headerSize < 40 ∨ mostPixels < width ∨ mostPixels < height ∨ depth ≠ 24 ∨
      compression ≠ 0 then none
  else
    let fromBottom ← rows? width height (bytes.drop start)
    let rows := fromBottom.reverse
    pure
      { red := ⟨width, height, rows.map fun row => row.map (·.2.2)⟩
        green := ⟨width, height, rows.map fun row => row.map (·.2.1)⟩
        blue := ⟨width, height, rows.map fun row => row.map (·.1)⟩ }

end Bitmap

end Catalog.Media
