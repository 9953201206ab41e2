import Catalog.Json.Value
import Catalog.Number.WrittenForm

/-! Documents as text: the compact form, which holds no space outside strings, and the indented form
with a line for every item and member. -/

namespace Catalog.Json

open Catalog.Number

namespace Number

/-- The text of a number. -/
def text : Number → List Char
  | .integer value => integerText value
  | .double value => inJson.write value

end Number

/-- A character inside a string: the quote, the backslash and control characters are escaped. -/
def escape (c : Char) : List Char :=
  match c with
  | '"' => ['\\', '"']
  | '\\' => ['\\', '\\']
  | '\x08' => ['\\', 'b']
  | '\x0c' => ['\\', 'f']
  | '\n' => ['\\', 'n']
  | '\r' => ['\\', 'r']
  | '\t' => ['\\', 't']
  | c => if c.toNat < 0x20 then '\\' :: 'u' :: Text.hexDigits 4 c.toNat else [c]

/-- A string between its quotes. -/
def stringText (s : String) : List Char := '"' :: s.toList.flatMap escape ++ ['"']

namespace Value

mutual

/-- The compact text of a document. -/
def compactText : Value → List Char
  | .null => ['n', 'u', 'l', 'l']
  | .bool true => ['t', 'r', 'u', 'e']
  | .bool false => ['f', 'a', 'l', 's', 'e']
  | .number value => value.text
  | .string value => stringText value
  | .array items => '[' :: compactItems items ++ [']']
  | .object members => '\x7b' :: compactMembers members ++ ['\x7d']

/-- The items of an array with commas between them. -/
def compactItems : List Value → List Char
  | [] => []
  | [item] => compactText item
  | item :: rest => compactText item ++ ',' :: compactItems rest

/-- The members of an object with commas between them. -/
def compactMembers : List (String × Value) → List Char
  | [] => []
  | [(name, value)] => stringText name ++ ':' :: compactText value
  | (name, value) :: rest => stringText name ++ ':' :: compactText value ++ ',' :: compactMembers rest

end

/-- The document as compact text. -/
def compact (value : Value) : String := String.ofList value.compactText

/-- A new line, indented by two spaces for each level. -/
def newLine (level : Nat) : List Char := '\n' :: List.replicate (2 * level) ' '

mutual

/-- The indented text of a document that starts at a level. -/
def indentedText (level : Nat) : Value → List Char
  | .array (item :: rest) =>
    '[' :: indentedItems (level + 1) (item :: rest) ++ newLine level ++ [']']
  | .object (member :: rest) =>
    '\x7b' :: indentedMembers (level + 1) (member :: rest) ++ newLine level ++ ['\x7d']
  | value => compactText value

/-- The items of an array, each on a line of its own. -/
def indentedItems (level : Nat) : List Value → List Char
  | [] => []
  | [item] => newLine level ++ indentedText level item
  | item :: rest => newLine level ++ indentedText level item ++ ',' :: indentedItems level rest

/-- The members of an object, each on a line of its own. -/
def indentedMembers (level : Nat) : List (String × Value) → List Char
  | [] => []
  | [(name, value)] => newLine level ++ stringText name ++ ':' :: ' ' :: indentedText level value
  | (name, value) :: rest =>
    newLine level ++ stringText name ++ ':' :: ' ' :: indentedText level value ++
      ',' :: indentedMembers level rest

end

/-- The document as indented text. -/
def indented (value : Value) : String := String.ofList (value.indentedText 0)

end Value

end Catalog.Json
