import Catalog.Text.Blank

/-! Quoted sections of a query. A single or double quote opens a section only where a value can start
and only if the same quote stands somewhere after it; the section ends at the first such quote. So
the apostrophe of a name quotes nothing. -/

namespace Catalog.Query

open Catalog.Text

/-- A character that can open a quoted section. -/
def isQuote (c : Char) : Bool := c == '"' || c == '\''

/-- A value can start after this character, or at the start of the text. -/
def startsValue : Option Char → Bool
  | none => true
  | some c => isBlank c || c == ':' || c == '=' || c == '<' || c == '>' || c == '!'

/-- The character opens a quoted section between the one before it and the text after it. -/
def opens (before : Option Char) (c : Char) (after : List Char) : Bool :=
  isQuote c && startsValue before && after.contains c

/-- For each character whether it stands inside a quoted section, the quotes themselves outside.
`before` is the character before the text and `within` the quote that has to close, if one is open. -/
def quotedFrom (before : Option Char) (within : Option Char) : List Char → List Bool
  | [] => []
  | c :: rest =>
    match within with
    | some quote =>
      if c = quote then false :: quotedFrom (some c) none rest
      else true :: quotedFrom (some c) within rest
    | none =>
      if opens before c rest then false :: quotedFrom (some c) (some c) rest
      else false :: quotedFrom (some c) none rest

/-- For each character of a text whether it stands inside a quoted section. -/
def quotedMask (text : List Char) : List Bool := quotedFrom none none text

/-- The characters of a text, each with whether it stands inside a quoted section. -/
def marked (text : List Char) : List (Char × Bool) := text.zip (quotedMask text)

theorem length_quotedFrom (before within : Option Char) (text : List Char) :
    (quotedFrom before within text).length = text.length := by
  induction text generalizing before within with
  | nil => rfl
  | cons c rest ih =>
    unfold quotedFrom
    split
    · split <;> simp [ih]
    · split <;> simp [ih]

theorem length_quotedMask (text : List Char) : (quotedMask text).length = text.length :=
  length_quotedFrom none none text

end Catalog.Query
