import Catalog.Store.Archive
import Catalog.Store.Basic

/-! The database of a catalog: a file in a tree that holds its tables. -/

namespace Catalog.Store

open Catalog.Files

/-- The longest time in milliseconds that a database can be waited for. -/
def longestWait : Nat := Nat.pow 2 31 - 1

/-- The files with the directory that a database goes to. A path without one needs none. -/
def prepareDirectory (files : FileTree) (path : Path) : Except StoreError FileTree :=
  let directory := path.parent
  if directory.bytes.isEmpty then .ok files
  else
    match files.makeDirectories directory with
    | .ok (files, _) => .ok files
    | .error cause => .error (.noDirectory directory cause)

/-- The files with a database at the path, and the catalog over its tables. A database that is not
there is made; a file that is none is left as it is. -/
def openAt (files : FileTree) (path : Path) (settings : Settings) :
    Except StoreError (FileTree × Store) := do
  let files ← prepareDirectory files path
  if longestWait < settings.pool.busyTimeoutMs then .error .noDatabase
  else
    match files.stat path with
    | .ok (.file content _) =>
      match content.read.toOption.bind Tables.ofBytes? with
      | some tables => pure (files, ofTables settings tables)
      | none => .error .noDatabase
    | .ok _ => .error .noDatabase
    | .error _ =>
      match files.write path (Tables.toBytes {}) 0 with
      | .ok files => pure (files, ofTables settings {})
      | .error _ => .error .noDatabase

/-- The files with the tables of a catalog in the database at the path. -/
def saveAt (store : Store) (files : FileTree) (path : Path) : FileTree :=
  match files.write path store.tables.toBytes 0 with
  | .ok files => files
  | .error _ => files

end Catalog.Store
