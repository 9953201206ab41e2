import Catalog.Text.Hex

/-! Media types, told from the first bytes of a file. The table holds common types of images, sounds, archives
and documents, not all that could be told apart; nothing that is proved depends on which ones it holds. -/

namespace Catalog.Media

/-- Bytes that must stand at a place. -/
structure Mark where
  offset : Nat
  bytes : List UInt8

/-- A media type and what its files begin with. -/
structure Signature where
  type : String
  /-- The number of bytes that must be there. -/
  length : Nat
  /-- One of these lists of marks must hold as a whole. -/
  oneOf : List (List Mark)
  /-- No list of marks here may hold. -/
  noneOf : List (Nat × UInt8) := []

/-- The mark holds of the bytes. -/
def Mark.holds (mark : Mark) (bytes : List UInt8) : Bool :=
  mark.bytes.isPrefixOf (bytes.drop mark.offset)

/-- The bytes carry the signature. -/
def Signature.matches (signature : Signature) (bytes : List UInt8) : Bool :=
  signature.length ≤ bytes.length &&
    signature.oneOf.any (fun marks => marks.all fun mark => mark.holds bytes) &&
    signature.noneOf.all fun (offset, byte) => bytes[offset]? != some byte

/-- ASCII text as bytes. -/
def ascii (text : String) : List UInt8 := text.toList.map fun c => UInt8.ofNat c.toNat

/-- The types that are told apart, in the order in which they are tried. -/
def signatures : List Signature :=
  [⟨"image/jpeg", 3, [[⟨0, [0xFF, 0xD8, 0xFF]⟩]], []⟩,
   ⟨"image/png", 4, [[⟨0, [0x89, 0x50, 0x4E, 0x47]⟩]], []⟩,
   ⟨"image/gif", 3, [[⟨0, ascii "GIF"⟩]], []⟩,
   ⟨"image/webp", 12, [[⟨8, ascii "WEBP"⟩]], []⟩,
   ⟨"image/tiff", 10, [[⟨0, [0x49, 0x49, 0x2A, 0x00]⟩], [⟨0, [0x4D, 0x4D, 0x00, 0x2A]⟩]],
     [(8, 0x43), (9, 0x52)]⟩,
   ⟨"image/bmp", 2, [[⟨0, ascii "BM"⟩]], []⟩,
   ⟨"audio/mpeg", 3, [[⟨0, ascii "ID3"⟩], [⟨0, [0xFF, 0xFB]⟩]], []⟩,
   ⟨"audio/ogg", 4, [[⟨0, ascii "OggS"⟩]], []⟩,
   ⟨"audio/x-flac", 4, [[⟨0, ascii "fLaC"⟩]], []⟩,
   ⟨"audio/x-wav", 12, [[⟨0, ascii "RIFF"⟩, ⟨8, ascii "WAVE"⟩]], []⟩,
   ⟨"application/zip", 4,
     [[⟨0, ascii "PK" ++ [3, 4]⟩], [⟨0, ascii "PK" ++ [5, 6]⟩], [⟨0, ascii "PK" ++ [7, 8]⟩]], []⟩,
   ⟨"application/gzip", 3, [[⟨0, [0x1F, 0x8B, 0x08]⟩]], []⟩,
   ⟨"application/x-7z-compressed", 6, [[⟨0, [0x37, 0x7A, 0xBC, 0xAF, 0x27, 0x1C]⟩]], []⟩,
   ⟨"application/pdf", 4, [[⟨0, ascii "%PDF"⟩]], []⟩]

/-- The type of files without a known signature. -/
def unknownType : String := "application/octet-stream"

/-- The number of bytes that are looked at. -/
def sniffed : Nat := 8192

/-- The media type of a file with the given bytes. -/
def typeOf (bytes : List UInt8) : String :=
  match signatures.find? fun signature => signature.matches (bytes.take sniffed) with
  | some signature => signature.type
  | none => unknownType

end Catalog.Media
