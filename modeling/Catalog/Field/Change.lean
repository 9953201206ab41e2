import Catalog.Field.Basic

/-! Changes between two field maps. -/

namespace Catalog

open Catalog.Order

/-- What happened to the value of a field. -/
inductive Change where
  | added (new : String)
  | updated (old new : String)
  | removed (old : String)
deriving DecidableEq, Repr

/-- The three kinds of change. -/
inductive ChangeKind where
  | added
  | updated
  | removed
deriving DecidableEq, Repr, Inhabited

namespace ChangeKind

/-- The name of the kind. -/
def name : ChangeKind → String
  | .added => "added"
  | .updated => "updated"
  | .removed => "removed"

/-- The kind with a name. -/
def ofName? (name : String) : Option ChangeKind :=
  [added, updated, removed].find? fun kind => kind.name == name

/-- Says that a name is no kind of change. -/
def unknownMessage (name : String) : String := "unknown change type '" ++ name ++ "'"

end ChangeKind

namespace Change

/-- The kind of a change. -/
def kind : Change → ChangeKind
  | .added _ => .added
  | .updated _ _ => .updated
  | .removed _ => .removed

/-- The value before the change. -/
def old? : Change → Option String
  | .added _ => none
  | .updated old _ => some old
  | .removed old => some old

/-- The value after the change. -/
def new? : Change → Option String
  | .added new => some new
  | .updated _ new => some new
  | .removed _ => none

/-- The change from one value to another, where no value counts as one; none if they are equal. -/
def between? : Option String → Option String → Option Change
  | none, none => none
  | none, some new => some (.added new)
  | some old, none => some (.removed old)
  | some old, some new => if old = new then none else some (.updated old new)

end Change

namespace FieldMap

/-- The fields of two maps in ascending order. -/
def fieldsOfBoth (current incoming : FieldMap) : List FieldKey :=
  (keyed (current ++ incoming)).map (·.1)

/-- The changes that lead from one map to another, in ascending order of fields. -/
def changes (current incoming : FieldMap) : List (FieldKey × Change) :=
  (fieldsOfBoth current incoming).filterMap fun field =>
    (Change.between? (get? field current) (get? field incoming)).map fun change => (field, change)

end FieldMap

end Catalog
