import Catalog.Order.Sort
import Catalog.Store.Record

/-! The tables of a catalog. Any table but that of the files may be missing; what needs a missing table
fails. -/

namespace Catalog

/-- The tables that may be missing. -/
inductive Table where
  | fields | ledger | hashes | favorites
deriving DecidableEq, Repr, Inhabited

/-- Why a statement on the tables fails. -/
inductive Fault where
  | missing (table : Table)
  /-- The ledger takes no entries. -/
  | ledgerClosed
  /-- The ledger is append-only. -/
  | ledgerAltered
  /-- A file has one value for each field. -/
  | duplicateField (field : FieldKey)
  | unknownFile (file : FileId)
  | unknownChangeKind (name : String)
deriving DecidableEq, Repr

/-- The rows of all tables, and the ids that come next. -/
structure Tables where
  files : List FileRecord := []
  fields : Option (List FieldRow) := some []
  ledger : Option (List LedgerEntry) := some []
  hashes : Option (List HashRow) := some []
  favorites : Option (List FavoriteRow) := some []
  nextFile : FileId := 1
  nextEntry : Nat := 1
  ledgerClosed : Bool := false
deriving DecidableEq, Repr, Inhabited

/-- The part of a list that starts at an offset and has at most so many elements. -/
def window {α : Type} (limit offset : Nat) (xs : List α) : List α := (xs.drop offset).take limit

namespace Tables

/-- The rows of a table, which must be there. -/
def need {α : Type} (table : Table) (rows : Option α) : Except Fault α :=
  match rows with
  | some rows => .ok rows
  | none => .error (.missing table)

/-- The tables with every missing one made anew. -/
def complete (tables : Tables) : Tables :=
  { tables with
    fields := some (tables.fields.getD [])
    ledger := some (tables.ledger.getD [])
    hashes := some (tables.hashes.getD [])
    favorites := some (tables.favorites.getD []) }

/-- The file stored for a path. -/
def fileAt? (tables : Tables) (path : String) : Option FileRecord :=
  tables.files.find? fun file => file.path == path

/-- The file with an id. -/
def file? (tables : Tables) (id : FileId) : Option FileRecord :=
  tables.files.find? fun file => file.id == id

/-- The fields of a file among some rows. -/
def fieldsAmong (rows : List FieldRow) (id : FileId) (keep : FieldRow → Bool) : FieldMap :=
  Order.keyed ((rows.filter fun row => row.file == id && keep row).map fun row =>
    (row.field, row.value))

/-- All fields of a file, none if the table is missing. -/
def fieldsOf (tables : Tables) (id : FileId) : FieldMap :=
  fieldsAmong (tables.fields.getD []) id fun _ => true

/-- The hashes of a file by their algorithms, none if the table is missing. -/
def hashesOf (tables : Tables) (id : FileId) : List (String × String) :=
  Order.keyed (((tables.hashes.getD []).filter fun row => row.file == id).map fun row =>
    (row.algorithm, row.hash))

/-- The tables with a row for each of the given fields, all of one kind. A field that the file has
already is refused. -/
def insertFields (tables : Tables) (id : FileId) (derived : Bool) :
    FieldMap → Except Fault Tables
  | [] => .ok tables
  | (field, value) :: rest => do
    let rows ← need .fields tables.fields
    if rows.any fun row => row.file == id && row.field == field then
      .error (.duplicateField field)
    else
      insertFields { tables with fields := some (rows ++ [⟨id, field, value, derived⟩]) } id derived
        rest

/-- The tables without the fields of a file. -/
def eraseFields (tables : Tables) (id : FileId) : Except Fault Tables := do
  let rows ← need .fields tables.fields
  pure { tables with fields := some (rows.filter fun row => row.file != id) }

/-- The tables with the given hashes of a file in place of those under the same algorithms. -/
def putHashes (tables : Tables) (id : FileId) (hashes : List (String × String)) :
    Except Fault Tables := do
  let rows ← need .hashes tables.hashes
  let kept := rows.filter fun row => !(row.file == id && hashes.any fun h => h.1 == row.algorithm)
  let added := (Order.keyed hashes).map fun (algorithm, hash) => ⟨id, algorithm, hash⟩
  pure { tables with hashes := some (kept ++ added) }

/-- The tables with a changed record of a file. -/
def updateFile (tables : Tables) (id : FileId) (change : FileRecord → FileRecord) : Tables :=
  { tables with files := tables.files.map fun file => if file.id == id then change file else file }

/-- The tables without a file and all rows that belong to it. -/
def eraseFile (tables : Tables) (id : FileId) : Tables :=
  { tables with
    files := tables.files.filter fun file => file.id != id
    fields := tables.fields.map (·.filter fun row => row.file != id)
    ledger := tables.ledger.map (·.filter fun entry => entry.file != id)
    hashes := tables.hashes.map (·.filter fun row => row.file != id)
    favorites := tables.favorites.map (·.filter fun row => row.file != id) }

end Tables

end Catalog
