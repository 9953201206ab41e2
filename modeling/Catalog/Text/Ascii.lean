/-! The ASCII part of text: case, digits and blanks. Letters beyond ASCII are left as they are. -/

namespace Catalog.Text

/-- ASCII capitals become small letters. -/
def lower (s : List Char) : List Char := s.map Char.toLower

/-- ASCII small letters become capitals. -/
def upper (s : List Char) : List Char := s.map Char.toUpper

/-- The texts agree up to the case of ASCII letters. -/
def sameLetters (s t : List Char) : Bool := lower s == lower t

/-- Space, tab, line feed, form feed and carriage return. -/
def isAsciiBlank (c : Char) : Bool :=
  c == ' ' || c == '\t' || c == '\n' || c == '\x0c' || c == '\r'

/-- Reads a run of decimal digits as the number it writes. -/
def digitsValue (s : List Char) : Nat :=
  s.foldl (fun n c => 10 * n + (c.toNat - '0'.toNat)) 0

/-- Reads decimal digits with an optional plus sign: at least one digit, nothing else. -/
def natural? (s : List Char) : Option Nat :=
  let digits := match s with
    | '+' :: rest => rest
    | _ => s
  if digits.isEmpty || !digits.all Char.isDigit then none else some (digitsValue digits)

/-- Reads decimal digits with an optional sign. -/
def integer? : List Char → Option Int
  | '-' :: rest =>
    if rest.isEmpty || !rest.all Char.isDigit then none else some (-(digitsValue rest : Int))
  | s => (natural? s).map Int.ofNat

/-- A number below 2^64. -/
def word64? (s : List Char) : Option Nat := (natural? s).filter (· < Nat.pow 2 64)

/-- A number that a signed word of 64 bits holds. -/
def signed64? (s : List Char) : Option Int :=
  (integer? s).filter fun n => -0x8000000000000000 ≤ n && n < 0x8000000000000000

end Catalog.Text
