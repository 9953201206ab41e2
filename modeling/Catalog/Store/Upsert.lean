import Catalog.Field.Normalize
import Catalog.Store.Favorite
import Catalog.Store.Ledger

/-! Storing what was extracted from a file. The first time a path is stored is the baseline; after
that every change of a field that the document gives becomes an entry of the ledger. -/

namespace Catalog

namespace Tables

/-- The tables with the fields of a file, explicit ones first. -/
def insertExtracted (tables : Tables) (id : FileId) (extracted : Extracted) :
    Except Fault Tables := do
  let tables ← tables.insertFields id false extracted.explicit
  tables.insertFields id true extracted.derived

/-- The tables with a new file and its fields, and the id of the file. The table of fields has to be
there. -/
def insertFile (tables : Tables) (now : Timestamp) (path : String) (seen : Observation)
    (extracted : Extracted) : Except Fault (Tables × FileId) := do
  let _ ← need .fields tables.fields
  let id := tables.nextFile
  let record : FileRecord :=
    ⟨id, path, seen.hash, seen.size, seen.modified, seen.type, now, now⟩
  let tables := { tables with files := tables.files ++ [record], nextFile := id + 1 }
  let tables ← tables.insertExtracted id extracted
  pure (tables, id)

/-- The tables with a stored file seen again. If its bytes or any of its fields are others, the fields
are replaced and the changes of explicit ones are recorded; in any case the time of the file moves. -/
def refreshFile (tables : Tables) (now : Timestamp) (file : FileRecord) (seen : Observation)
    (extracted : Extracted) : Except Fault Tables := do
  let rows ← need .fields tables.fields
  let explicit := fieldsAmong rows file.id fun row => !row.derived
  let derived := fieldsAmong rows file.id fun row => row.derived
  let changes := FieldMap.changes explicit extracted.explicit
  if file.hash ≠ seen.hash ∨ changes ≠ [] ∨ derived ≠ extracted.derived then
    let tables ← tables.eraseFields file.id
    let tables ← tables.insertExtracted file.id extracted
    let tables ← tables.appendChanges file.id now changes
    pure <| tables.updateFile file.id fun file =>
      { file with
        hash := seen.hash, size := seen.size, modified := seen.modified, type := seen.type
        lastUpdated := now }
  else pure (tables.updateFile file.id fun file => { file with lastUpdated := now })

/-- The tables with a file stored, new or not, and the id and time that it was stored under. The time
of a file never goes back behind its ledger. -/
def storeFile (tables : Tables) (now : Timestamp) (path : String) (seen : Observation)
    (extracted : Extracted) : Except Fault (Tables × FileId × Timestamp) :=
  match tables.fileAt? path with
  | none => do
    let (tables, id) ← tables.insertFile now path seen extracted
    pure (tables, id, now)
  | some file => do
    let now ← tables.ledgerTime file.id now
    let tables ← tables.refreshFile now file seen extracted
    pure (tables, file.id, now)

/-- The tables with a file stored together with the hashes and the favorite that are given. -/
def upsert (tables : Tables) (now : Timestamp) (path : String) (seen : Observation)
    (extracted : Extracted) (hashes : Option (List (String × String)))
    (favorite : Option FavoriteInput) : Except Fault (Tables × FileId) := do
  let (tables, id, now) ← tables.storeFile now path seen extracted
  let tables ← match hashes with
    | some hashes => tables.putHashes id hashes
    | none => pure tables
  let tables ← match favorite with
    | some input => tables.setFavorite id input now
    | none => pure tables
  pure (tables, id)

end Tables

end Catalog
