import Catalog.Json.Number
import Catalog.Order.Keyed

/-! JSON documents: the values that texts stand for. -/

namespace Catalog.Json

open Catalog.Order

/-- A document. The members of an object stand in ascending order of their names. -/
inductive Value where
  | null
  | bool (value : Bool)
  | number (value : Number)
  | string (value : String)
  | array (items : List Value)
  | object (members : List (String × Value))
deriving Inhabited

namespace Value

/-- The greatest number of arrays and objects inside each other that is read. -/
def deepest : Nat := 127

mutual

/-- The value of a tree, if its strings are text and its numbers are in range. -/
def ofSyntax? : Syntax → Option Value
  | .null => some .null
  | .bool value => some (.bool value)
  | .number numeral => (Number.ofNumeral? numeral).map .number
  | .string units => units.decode?.map fun s => .string (String.ofList s)
  | .array items => (itemsOf? items).map .array
  | .object members => (membersOf? members).map fun members => .object (keyed members)

/-- The values of trees, in their order. -/
def itemsOf? : List Syntax → Option (List Value)
  | [] => some []
  | item :: rest => do
    let value ← ofSyntax? item
    let values ← itemsOf? rest
    pure (value :: values)

/-- The names and values of members, in their order. -/
def membersOf? : List (Quoted × Syntax) → Option (List (String × Value))
  | [] => some []
  | (name, tree) :: rest => do
    let name ← name.decode?
    let value ← ofSyntax? tree
    let members ← membersOf? rest
    pure ((String.ofList name, value) :: members)

end

/-- Reads a document. Of members with one name the last one counts. -/
def read? (text : String) : Option Value := do
  let tree ← Syntax.read? text.toList
  if tree.depth ≤ deepest then ofSyntax? tree else none

/-- An object of the given members in order of their names. -/
def ofMembers (members : List (String × Value)) : Value := .object (keyed members)

/-- The document is an object. -/
def isObject : Value → Bool
  | .object _ => true
  | _ => false

end Value

end Catalog.Json
