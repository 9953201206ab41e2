import Catalog.Field.Flatten
import Catalog.Text.Ascii

/-! Normalized fields: values that documents give under many names, collected under one name each. -/

namespace Catalog

open Catalog.Order

/-- The normalized fields and the keys that they are taken from, best first. Keys are given in small
letters. -/
def normalizedNames : List (String × List String) :=
  [("camera_make", ["camera_make", "make"]),
   ("camera_model", ["camera_model", "model"]),
   ("lens", ["lens", "lens_model", "lensmodel", "lens_id", "lensid"]),
   ("format", ["format", "file_type", "filetype"]),
   ("width", ["width", "image_width", "imagewidth", "exif_image_width"]),
   ("height", ["height", "image_height", "imageheight", "exif_image_height"]),
   ("date_taken", ["date_taken", "datetime_original", "datetimeoriginal", "create_date", "createdate"]),
   ("iso", ["iso", "iso_speed", "isospeedratings"])]

namespace FieldMap

/-- The value of the first field outside a category whose key is the other name in any ASCII case. -/
def underAlias? (fields : FieldMap) (category other : String) : Option String :=
  (fields.find? fun (field, _) =>
    field.category ≠ category && Text.lower field.key.toList == other.toList).map (·.2)

/-- The value of a normalized field that is not given: the one under the best alias that occurs. -/
def derived? (fields : FieldMap) (category : String) (name : String) (aliases : List String) :
    Option (FieldKey × String) :=
  if (get? ⟨category, name⟩ fields).isSome then none
  else (aliases.findSome? (underAlias? fields category)).map fun value => (⟨category, name⟩, value)

/-- The normalized fields that the other categories give, without those that the map has already. -/
def normalized (fields : FieldMap) (category : String) : FieldMap :=
  keyed (normalizedNames.filterMap fun (name, aliases) => fields.derived? category name aliases)

end FieldMap

/-- What a document yields: its own fields, and the normalized ones derived from them. -/
structure Extracted where
  explicit : FieldMap
  derived : FieldMap
deriving DecidableEq, Repr, Inhabited

namespace Extracted

/-- The fields of a document under the given rules. -/
def ofDocument (rules : FlattenRules) (document : Json.Value) : Extracted :=
  let explicit := flatten rules document
  ⟨explicit, explicit.normalized rules.normalizedCategory⟩

/-- All fields together. -/
def all (extracted : Extracted) : FieldMap :=
  extracted.derived.foldl (fun fields (field, value) => put field value fields) extracted.explicit

end Extracted

end Catalog
