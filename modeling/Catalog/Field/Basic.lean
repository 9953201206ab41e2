import Catalog.Order.Keyed

/-! Metadata fields: a category and a key name a field, and a field map gives some of them a text. -/

namespace Catalog

/-- The name of a field. -/
structure FieldKey where
  category : String
  key : String
deriving DecidableEq, Repr, Inhabited

namespace FieldKey

/-- Fields are in order of their categories, those of one category in order of their keys. -/
instance : LT FieldKey where
  lt a b := a.category < b.category ∨ a.category = b.category ∧ a.key < b.key

instance : DecidableLT FieldKey := fun a b =>
  inferInstanceAs (Decidable (a.category < b.category ∨ a.category = b.category ∧ a.key < b.key))

/-- The field as it is named in lists: category and key with a point between them. -/
def dotted (field : FieldKey) : String := field.category ++ "." ++ field.key

end FieldKey

/-- Fields with their values, in ascending order of the fields, each field once. -/
abbrev FieldMap := List (FieldKey × String)

end Catalog
