import Catalog.Field.Normalize
import Catalog.Proofs.Field.Change

/-! What a document yields are maps, and so are both kinds of its fields together. -/

namespace Catalog

open Catalog.Order

theorem ascending_flatten (rules : FlattenRules) (document : Json.Value) :
    Ascending (flatten rules document) := by
  cases document with
  | object members => exact ascending_keyed _
  | _ => exact .nil

theorem FieldMap.ascending_normalized (fields : FieldMap) (category : String) :
    Ascending (fields.normalized category) := ascending_keyed _

namespace Extracted

/-- Both kinds of fields are maps. -/
structure Ordered (extracted : Extracted) : Prop where
  explicit : Ascending extracted.explicit
  derived : Ascending extracted.derived

theorem ordered_ofDocument (rules : FlattenRules) (document : Json.Value) :
    (ofDocument rules document).Ordered :=
  ⟨ascending_flatten rules document, FieldMap.ascending_normalized _ _⟩

theorem all_eq_keyed {extracted : Extracted} (h : Ascending extracted.explicit) :
    extracted.all = keyed (extracted.explicit ++ extracted.derived) := by
  rw [keyed, List.foldl_append, ← keyed, h.keyed_eq]
  rfl

end Extracted

end Catalog
