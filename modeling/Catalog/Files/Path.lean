import Catalog.Text.Raw
import Catalog.Text.Search

/-! Paths: names with slashes between them, in bytes. -/

namespace Catalog.Files

open Catalog.Text

/-- A path as its bytes. -/
abbrev Path := RawText

/-- The name of an entry of a directory, in bytes that need not spell a text. -/
abbrev Name := RawText

/-- The byte between names. -/
def slash : UInt8 := '/'.toUInt8

/-- The byte in front of an extension. -/
def point : UInt8 := '.'.toUInt8

namespace Name

/-- The name by which a directory stands in itself. -/
def here : Name := ⟨[point]⟩

/-- The name by which the directory around it stands in a directory. -/
def up : Name := ⟨[point, point]⟩

/-- A name before and after its last point. A point at the start of a name begins no extension. -/
def split (name : Name) : List UInt8 × Option (List UInt8) :=
  match cutLast? point name.bytes with
  | some ([], _) => (name.bytes, none)
  | some (stem, extension) => (stem, some extension)
  | none => (name.bytes, none)

end Name

namespace Path

/-- The pieces between slashes, empty ones included. -/
def piecesOf : List UInt8 → List (List UInt8)
  | [] => [[]]
  | byte :: rest =>
    if byte = slash then [] :: piecesOf rest
    else
      match piecesOf rest with
      | [] => [[byte]]
      | piece :: pieces => (byte :: piece) :: pieces

/-- A piece that leads nowhere: an empty one or a single dot. -/
def isStill (piece : List UInt8) : Bool := piece.isEmpty || piece == [point]

/-- The names along a path in order. -/
def names (path : Path) : List Name :=
  ((piecesOf path.bytes).filter fun piece => !isStill piece).map RawText.mk

/-- The steps along a path: its names, and a single dot at its end if only a directory can be meant. -/
def steps (path : Path) : List Name :=
  let last := (piecesOf path.bytes).getLast?.getD []
  names path ++ if isStill last then [Name.here] else []

/-- The path starts at the root of all files. -/
def isAbsolute (path : Path) : Bool := [slash].isPrefixOf path.bytes

/-- The last name of a path, unless that goes up. -/
def fileName? (path : Path) : Option Name := (names path).getLast?.filter (· ≠ Name.up)

/-- The part of the last name after its last point. -/
def extension? (path : Path) : Option RawText :=
  (fileName? path).bind fun name => name.split.2.map RawText.mk

/-- The path of an entry of a directory. -/
def join (directory : Path) (name : Name) : Path :=
  if [slash].isSuffixOf directory.bytes then directory ++ name
  else ⟨directory.bytes ++ slash :: name.bytes⟩

/-- The path that the given one becomes without the extension of its last name. -/
def withoutExtension? (path : Path) : Option Path := do
  let name ← fileName? path
  let extension ← name.split.2
  let bytes ← beforeEnd? (point :: extension) path.bytes
  pure ⟨bytes⟩

/-- The pieces without those at the end that lead nowhere; the first piece stays. -/
def withoutStillEnd : List (List UInt8) → List (List UInt8)
  | [] => []
  | first :: rest => first :: (rest.reverse.dropWhile isStill).reverse

/-- Pieces with slashes between them. -/
def ofPieces (pieces : List (List UInt8)) : Path := ⟨List.intercalate [slash] pieces⟩

/-- The path of the directory that holds what the path names: the empty path for a single name. -/
def parent (path : Path) : Path :=
  match withoutStillEnd (withoutStillEnd (piecesOf path.bytes)).dropLast with
  | [[]] => ⟨[slash]⟩
  | pieces => ofPieces pieces

end Path

end Catalog.Files
