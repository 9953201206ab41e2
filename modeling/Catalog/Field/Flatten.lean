import Catalog.Field.Basic
import Catalog.Json.Printer

/-! Flattening: the fields of a document. The members of the document are categories. A category that
is an object has a field for each of its members, one that is a list of objects makes a numbered
category of each of them, and one that is any other value is a field of its own. -/

namespace Catalog

open Catalog.Json Catalog.Order

/-- The names with a meaning of their own in documents, and the greatest length of a value. -/
structure FlattenRules where
  /-- Categories and keys that begin so are not stored; the empty text reserves nothing. -/
  reservedPrefix : String := "_"
  /-- A category whose member of this name holds is not stored. -/
  lockedMarker : String := "_locked"
  /-- Values are cut to this many characters. -/
  maxValueLength : Nat := 1000
  /-- The category of normalized fields. -/
  normalizedCategory : String := "normalized"
deriving DecidableEq, Repr, Inhabited

namespace FlattenRules

/-- The name begins with the reserved prefix. -/
def reserves (rules : FlattenRules) (name : String) : Bool :=
  !rules.reservedPrefix.toList.isEmpty && rules.reservedPrefix.toList.isPrefixOf name.toList

/-- What a locked marker says: null, false, zero and empty values say no. -/
def holds : Value → Bool
  | .null => false
  | .bool value => value
  | .number value => !value.isZero
  | .string value => !value.toList.isEmpty
  | .array items => !items.isEmpty
  | .object members => !members.isEmpty

/-- The category with these members carries the locked marker. -/
def locks (rules : FlattenRules) (members : List (String × Value)) : Bool :=
  match get? rules.lockedMarker members with
  | some marker => holds marker
  | none => false

/-- The text of a value before it is cut. Null has none. -/
def wholeText? : Value → Option String
  | .null => none
  | .string value => some value
  | value => some value.compact

/-- The text cut to the greatest length. -/
def cut (rules : FlattenRules) (text : String) : String :=
  String.ofList (text.toList.take rules.maxValueLength)

/-- The text that is stored for a value. -/
def text? (rules : FlattenRules) (value : Value) : Option String :=
  (wholeText? value).map rules.cut

/-- The fields of a category with the given members. -/
def categoryFields (rules : FlattenRules) (category : String) (members : List (String × Value)) :
    FieldMap :=
  if rules.locks members then []
  else
    (members.filter fun m => !rules.reserves m.1).filterMap fun (key, value) =>
      (rules.text? value).map fun text => (⟨category, key⟩, text)

/-- The objects in a list that holds nothing else. -/
def objects? : List Value → Option (List (List (String × Value)))
  | [] => some []
  | .object members :: rest => (objects? rest).map (members :: ·)
  | _ :: _ => none

/-- The name of the category that an object at a place of a list makes. -/
def numbered (category : String) (place : Nat) : String :=
  category ++ "_" ++ String.ofList (Nat.toDigits 10 place)

/-- The fields of objects that stand in a list from a place on. -/
def listFields (rules : FlattenRules) (category : String) :
    (place : Nat) → List (List (String × Value)) → FieldMap
  | _, [] => []
  | place, members :: rest =>
    rules.categoryFields (numbered category place) members ++
      listFields rules category (place + 1) rest

/-- The field of a category that is neither an object nor a list of objects. -/
def bareField (rules : FlattenRules) (category : String) (value : Value) : FieldMap :=
  match rules.text? value with
  | some text => [(⟨category, "value"⟩, text)]
  | none => []

/-- The fields of a member of the document. -/
def memberFields (rules : FlattenRules) (category : String) : Value → FieldMap
  | .object members => rules.categoryFields category members
  | .array items =>
    match objects? items with
    | some objects => rules.listFields category 0 objects
    | none => rules.bareField category (.array items)
  | value => rules.bareField category value

/-- The fields of the members of a document, in the order in which they are found. -/
def found (rules : FlattenRules) (members : List (String × Value)) : FieldMap :=
  (members.filter fun m => !rules.reserves m.1).flatMap fun (category, value) =>
    rules.memberFields category value

end FlattenRules

/-- The fields of a document. Where two parts of it make one field, the part found last counts. A
document that is no object has none. -/
def flatten (rules : FlattenRules) : Value → FieldMap
  | .object members => keyed (rules.found members)
  | _ => []

end Catalog
