import Catalog.Field.Flatten
import Catalog.Proofs.Order.Keyed

/-! The values that the fields of a document are made of, before they are texts. -/

namespace Catalog

open Catalog.Json Catalog.Order

namespace FlattenRules

variable (rules : FlattenRules)

/-- The values of the fields of a category with the given members. -/
def categoryLeaves (category : String) (members : List (String × Value)) : List (FieldKey × Value) :=
  if rules.locks members then []
  else (members.filter fun m => !rules.reserves m.1).map fun m => (⟨category, m.1⟩, m.2)

/-- The values of the fields of objects that stand in a list from a place on. -/
def listLeaves (category : String) :
    (place : Nat) → List (List (String × Value)) → List (FieldKey × Value)
  | _, [] => []
  | place, members :: rest =>
    rules.categoryLeaves (numbered category place) members ++ listLeaves category (place + 1) rest

/-- The values of the fields of a member of the document. -/
def memberLeaves (category : String) : Value → List (FieldKey × Value)
  | .object members => rules.categoryLeaves category members
  | .array items =>
    match objects? items with
    | some objects => rules.listLeaves category 0 objects
    | none => [(⟨category, "value"⟩, .array items)]
  | value => [(⟨category, "value"⟩, value)]

/-- The values of the fields of a document, in the order in which they are found. -/
def leaves : Value → List (FieldKey × Value)
  | .object members =>
    (members.filter fun m => !rules.reserves m.1).flatMap fun m => rules.memberLeaves m.1 m.2
  | _ => []

/-- The field that a leaf makes, if it has a text. -/
def fieldOf? (leaf : FieldKey × Value) : Option (FieldKey × String) :=
  (rules.text? leaf.2).map fun text => (leaf.1, text)

/-- The leaf that a field is made of: the last one under its name that has a text. -/
def leafOf? (document : Value) (field : FieldKey) : Option Value :=
  get? field ((rules.leaves document).filter fun leaf => (rules.text? leaf.2).isSome).reverse

theorem categoryFields_eq (category : String) (members : List (String × Value)) :
    rules.categoryFields category members =
      (rules.categoryLeaves category members).filterMap rules.fieldOf? := by
  unfold categoryFields categoryLeaves
  split
  · rfl
  · rw [List.filterMap_map]
    rfl

theorem listFields_eq (category : String) (place : Nat) (objects : List (List (String × Value))) :
    rules.listFields category place objects =
      (rules.listLeaves category place objects).filterMap rules.fieldOf? := by
  induction objects generalizing place with
  | nil => rfl
  | cons members rest ih =>
    rw [listFields, listLeaves, categoryFields_eq, ih, List.filterMap_append]

theorem bareField_eq (category : String) (value : Value) :
    rules.bareField category value = [(⟨category, "value"⟩, value)].filterMap rules.fieldOf? := by
  unfold bareField
  cases h : rules.text? value <;> simp [fieldOf?, h]

theorem memberFields_eq (category : String) (value : Value) :
    rules.memberFields category value =
      (rules.memberLeaves category value).filterMap rules.fieldOf? := by
  cases value with
  | object members => exact rules.categoryFields_eq category members
  | array items =>
    unfold memberFields memberLeaves
    dsimp only
    cases objects? items with
    | some objects => exact rules.listFields_eq category 0 objects
    | none => exact rules.bareField_eq category _
  | null => exact rules.bareField_eq category .null
  | bool value => exact rules.bareField_eq category (.bool value)
  | number value => exact rules.bareField_eq category (.number value)
  | string value => exact rules.bareField_eq category (.string value)

theorem flatten_eq (document : Value) :
    flatten rules document = keyed ((rules.leaves document).filterMap rules.fieldOf?) := by
  cases document with
  | object members =>
    unfold flatten found leaves
    dsimp only
    rw [List.filterMap_flatMap]
    simp only [memberFields_eq]
  | _ => rfl

theorem get?_filterMap_fieldOf? (field : FieldKey) (leaves : List (FieldKey × Value)) :
    get? field (leaves.filterMap rules.fieldOf?) =
      (get? field (leaves.filter fun leaf => (rules.text? leaf.2).isSome)).bind rules.text? := by
  induction leaves with
  | nil => rfl
  | cons leaf rest ih =>
    -- A leaf without a text is left out on both sides.
    obtain ⟨name, value⟩ := leaf
    cases htext : rules.text? value with
    | none => simp [fieldOf?, htext, ih]
    | some text => by_cases hfield : name = field <;> simp [fieldOf?, htext, ih, get?_cons, hfield]

/-- A field has the text of its leaf. -/
theorem get?_flatten (document : Value) (field : FieldKey) :
    get? field (flatten rules document) = (rules.leafOf? document field).bind rules.text? := by
  rw [flatten_eq, get?_keyed, ← List.filterMap_reverse, get?_filterMap_fieldOf?, leafOf?,
    List.filter_reverse]

theorem leafOf?_single {category key : String} {value : Value} (hcategory : rules.reserves category = false)
    (hkey : rules.reserves key = false) (hmarker : key ≠ rules.lockedMarker)
    (htext : (rules.text? value).isSome) :
    rules.leafOf? (.object [(category, .object [(key, value)])]) ⟨category, key⟩ = some value := by
  have hlocks : rules.locks [(key, value)] = false := by
    simp [locks, get?_cons, hmarker]
  simp [leafOf?, leaves, memberLeaves, categoryLeaves, hcategory, hkey, hlocks, htext, get?_cons]

/-- A number within the greatest length is stored with its whole text. -/
theorem text?_number {n : Json.Number} (h : n.text.length ≤ rules.maxValueLength) :
    rules.text? (.number n) = some (String.ofList n.text) := by
  have hwhole : wholeText? (.number n) = some (String.ofList n.text) := rfl
  rw [text?, hwhole, Option.map_some, cut, String.toList_ofList, List.take_of_length_le h]

end FlattenRules

end Catalog
