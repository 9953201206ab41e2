import Catalog.Order.Total

/-! Text as bytes: UTF-8 lengths, and reading bytes as text. -/

namespace Catalog.Text

/-- The number of bytes that the text takes in UTF-8. -/
def byteLength (s : List Char) : Nat := Order.total (s.map Char.utf8Size)

/-- The bytes of a text in UTF-8. -/
def toBytes (s : String) : List UInt8 := s.toUTF8.data.toList

/-- The text that the bytes spell, unless they are not UTF-8. -/
def ofBytes? (bytes : List UInt8) : Option String := String.fromUTF8? ⟨bytes.toArray⟩

theorem byteLength_append (s t : List Char) : byteLength (s ++ t) = byteLength s + byteLength t := by
  simp [byteLength, Order.total_append]

end Catalog.Text
