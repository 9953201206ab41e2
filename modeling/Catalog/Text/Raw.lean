import Catalog.Text.Escape
import Catalog.Text.Utf8

/-! Text as the system keeps it: bytes that need not spell characters. It can always be shown, with U+FFFD
for bytes that spell none, and so two different ones may look alike. -/

namespace Catalog.Text

/-! ### What bytes spell -/

/-- A part of some bytes: a character in UTF-8, or bytes that spell none. -/
inductive Piece where
  | char (c : Char)
  | stray (bytes : List UInt8)
deriving DecidableEq, Repr

/-- The bytes from one to another. -/
structure ByteRange where
  first : Nat
  last : Nat
deriving DecidableEq, Repr

/-- The byte is in the range. -/
def ByteRange.holds (range : ByteRange) (byte : UInt8) : Bool :=
  range.first ≤ byte.toNat && byte.toNat ≤ range.last

/-- The range of a byte that is not the first one of its character. -/
def following : ByteRange := ⟨0x80, 0xBF⟩

/-- The ranges of the bytes that go on with a character after its first byte, if one begins with that. What
could be written shorter, surrogates, and what lies beyond the last character are left out. -/
def rangesAfter? (byte : UInt8) : Option (List ByteRange) :=
  let n := byte.toNat
  if n < 0x80 then some []
  else if n < 0xC2 then none
  else if n < 0xE0 then some [following]
  else if n = 0xE0 then some [⟨0xA0, 0xBF⟩, following]
  else if n = 0xED then some [⟨0x80, 0x9F⟩, following]
  else if n < 0xF0 then some [following, following]
  else if n = 0xF0 then some [⟨0x90, 0xBF⟩, following, following]
  else if n < 0xF4 then some [following, following, following]
  else if n = 0xF4 then some [⟨0x80, 0x8F⟩, following, following]
  else none

/-- The number that the bytes of a character stand for. -/
def scalarOf : List UInt8 → Nat
  | [a] => a.toNat
  | [a, b] => a.toNat % 32 * 64 + b.toNat % 64
  | [a, b, c] => a.toNat % 16 * 4096 + b.toNat % 64 * 64 + c.toNat % 64
  | [a, b, c, d] => a.toNat % 8 * 262144 + b.toNat % 64 * 4096 + c.toNat % 64 * 64 + d.toNat % 64
  | _ => 0

/-- A character of which only the first bytes have been read, and the ranges of those that are missing. -/
structure Begun where
  bytes : List UInt8
  next : ByteRange
  later : List ByteRange

/-- What is complete after some bytes of a character, and what is begun, if bytes in some ranges are
missing. -/
def advance (bytes : List UInt8) : List ByteRange → List Piece × Option Begun
  | [] => ([.char (Char.ofNat (scalarOf bytes))], none)
  | next :: later => ([], some ⟨bytes, next, later⟩)

/-- What is complete and what is begun after a byte that goes on with nothing. -/
def restart (byte : UInt8) : List Piece × Option Begun :=
  match rangesAfter? byte with
  | some ranges => advance [byte] ranges
  | none => ([.stray [byte]], none)

/-- What one more byte makes complete and leaves begun. -/
def readByte : Option Begun → UInt8 → List Piece × Option Begun
  | none, byte => restart byte
  | some begun, byte =>
    if begun.next.holds byte then advance (begun.bytes ++ [byte]) begun.later
    else ((restart byte).1.cons (.stray begun.bytes), (restart byte).2)

/-- What bytes spell that come after a character is begun, or not. -/
def spelled : Option Begun → List UInt8 → List Piece
  | none, [] => []
  | some begun, [] => [.stray begun.bytes]
  | begun, byte :: rest => (readByte begun byte).1 ++ spelled (readByte begun byte).2 rest

/-- The character that is shown for bytes that spell none. -/
def replacement : Char := '\uFFFD'

/-- The character that a piece shows as. -/
def Piece.shown : Piece → Char
  | char c => c
  | stray _ => replacement

/-- A piece inside double quotes: bytes that spell nothing are given by their digits. -/
def Piece.escaped : Piece → List Char
  | char c => escapeChar c
  | stray bytes => bytes.flatMap fun byte => ['\\', 'x'] ++ (hexDigits 2 byte.toNat).map Char.toUpper

/-! ### Raw text -/

/-- A text in bytes, some of which may spell no character. -/
@[ext]
structure RawText where
  bytes : List UInt8
deriving DecidableEq, Repr, Inhabited

namespace RawText

instance less : LT RawText := ⟨fun a b => a.bytes < b.bytes⟩

instance decidableLess : DecidableLT RawText := fun a b => inferInstanceAs (Decidable (a.bytes < b.bytes))

/-- The text in UTF-8. -/
def ofText (s : String) : RawText := ⟨toBytes s⟩

instance ofString : Coe String RawText := ⟨ofText⟩

/-- The text with more at its end. -/
def append (a b : RawText) : RawText := ⟨a.bytes ++ b.bytes⟩

instance appends : Append RawText := ⟨append⟩

@[simp] theorem bytes_append (a b : RawText) : (a ++ b).bytes = a.bytes ++ b.bytes := rfl

/-- What the bytes spell. -/
def pieces (raw : RawText) : List Piece := spelled none raw.bytes

/-- The text that all the bytes spell, if they do. -/
def text? (raw : RawText) : Option String := ofBytes? raw.bytes

/-- The text as it is shown. It is the text that the bytes spell, if they do. -/
def text (raw : RawText) : String := String.ofList (raw.pieces.map Piece.shown)

/-- Where a text is expected, a raw one stands for what it shows. -/
instance toText : Coe RawText String := ⟨text⟩

/-- The raw text between double quotes. -/
def quoted (raw : RawText) : String := String.ofList ('"' :: raw.pieces.flatMap Piece.escaped ++ ['"'])

end RawText

end Catalog.Text
