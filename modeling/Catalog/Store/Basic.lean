import Catalog.Digest.Sha256
import Catalog.Files.Tree
import Catalog.Media.Signature
import Catalog.Settings.Basic
import Catalog.Store.Search
import Catalog.Store.Stats
import Catalog.Store.Upsert

/-! The catalog itself: settings and tables, and the operations on them. Writing either succeeds as a
whole or leaves the catalog as it was; reading never fails. A file is stored under its path as that is shown,
so that paths which look alike share one file of the catalog. -/

namespace Catalog

open Catalog.Files

/-- Why an operation on a catalog fails. -/
inductive StoreError where
  | unreadable (path : Path) (cause : FileError)
  /-- The directory of the database cannot be made. -/
  | noDirectory (path : Path) (cause : FileError)
  /-- The file of the database cannot be opened as one. -/
  | noDatabase
  | storage (fault : Fault)
deriving DecidableEq, Repr

namespace StoreError

/-- The source bytes could not be read. -/
def isRead : StoreError → Bool
  | unreadable _ _ => true
  | _ => false

/-- The database failed; what it held is untouched. -/
def isStorage : StoreError → Bool
  | unreadable _ _ => false
  | _ => true

/-- What the error says of a path, if it is about one. -/
def message? : StoreError → Option String
  | unreadable path cause =>
    some ("Failed to read " ++ path.quoted ++ ": " ++ cause.message)
  | noDirectory path cause =>
    some ("Failed to prepare database directory " ++ path.quoted ++ ": " ++ cause.message)
  | _ => none

end StoreError

namespace Observation

/-- The seconds since the epoch of a time in nanoseconds, zero for times before it. -/
def seconds (nanoseconds : Int) : Int := if nanoseconds < 0 then 0 else nanoseconds / 1000000000

/-- What is seen of a file with the given bytes and time of change. -/
def ofFile (bytes : List UInt8) (modified : Int) : Observation :=
  { hash := Digest.sha256 bytes
    size := min bytes.length (Nat.pow 2 63 - 1)
    modified := seconds modified
    type := Media.typeOf bytes }

/-- What is seen of the file that a path leads to. -/
def ofPath (files : FileTree) (path : Path) : Except StoreError Observation :=
  match files.stat path with
  | .error cause => .error (.unreadable path cause)
  | .ok (.file content modified) =>
    match content.read with
    | .error cause => .error (.unreadable path cause)
    | .ok bytes => .ok (ofFile bytes modified)
  | .ok _ => .error (.unreadable path .isDirectory)

end Observation

/-- A catalog. -/
structure Store where
  settings : Settings := {}
  tables : Tables := {}
deriving DecidableEq, Repr, Inhabited

namespace Store

/-- The catalog over some tables; missing ones are made. -/
def ofTables (settings : Settings) (tables : Tables) : Store := ⟨settings, tables.complete⟩

/-- The catalog closed and opened again with other settings. -/
def reopen (store : Store) (settings : Settings) : Store := ofTables settings store.tables

/-- The catalog after a change of its tables, and the result of the change. A change that fails leaves
the catalog as it was. -/
def commit {α : Type} (store : Store) (change : Except Fault (Tables × α)) :
    Store × Except StoreError α :=
  match change with
  | .ok (tables, result) => ({ store with tables }, .ok result)
  | .error fault => (store, .error (.storage fault))

/-! ### Writing -/

/-- The catalog after storing the file at a path with its document, and the id of the file. -/
def upsert (store : Store) (files : FileTree) (now : Timestamp) (path : Path)
    (document : Json.Value) (hashes : Option (List (String × String)))
    (favorite : Option FavoriteInput) : Store × Except StoreError FileId :=
  match Observation.ofPath files path with
  | .error cause => (store, .error cause)
  | .ok seen =>
    let extracted := Extracted.ofDocument store.settings.flatten document
    store.commit (store.tables.upsert now path.text seen extracted hashes favorite)

/-- The catalog without the file stored for a path, and whether there was one. -/
def delete (store : Store) (path : Path) : Store × Bool :=
  match store.tables.fileAt? path.text with
  | some file => ({ store with tables := store.tables.eraseFile file.id }, true)
  | none => (store, false)

/-- The catalog with a file made a favorite, or no longer one, and whether it is one then. -/
def toggleFavorite (store : Store) (now : Timestamp) (id : FileId) (notes : Option String)
    (tags : List String) : Store × Except StoreError Bool :=
  store.commit (store.tables.toggleFavorite id ⟨notes, tags⟩ now)

/-! ### Reading -/

/-- The file stored for a path. -/
def fileAt? (store : Store) (path : Path) : Option FileRecord := store.tables.fileAt? path.text

/-- The file with an id. -/
def file? (store : Store) (id : FileId) : Option FileRecord := store.tables.file? id

/-- The fields of a file, derived ones included. -/
def fields (store : Store) (id : FileId) : FieldMap := store.tables.fieldsOf id

/-- The hashes of a file by their algorithms. -/
def hashes (store : Store) (id : FileId) : List (String × String) := store.tables.hashesOf id

/-- The changes of a file, the latest first. -/
def history (store : Store) (id : FileId) (limit offset : Nat) : List LedgerEntry :=
  window limit offset (store.tables.wholeHistory id)

/-- The changes of the file stored for a path, the latest first. -/
def historyAt (store : Store) (path : Path) (limit offset : Nat) : List LedgerEntry :=
  match store.fileAt? path with
  | some file => store.history file.id limit offset
  | none => []

/-- The files that a query finds, the last updated first. -/
def search (store : Store) (query : String) (limit offset : Nat) : SearchResults :=
  let compiled := Query.compile store.settings.flatten.normalizedCategory query
  { files := window limit offset (store.tables.select compiled.predicates)
    parsedClauses := compiled.predicates.length
    droppedClauses := compiled.dropped }

/-- Totals over all files. -/
def stats (store : Store) : Stats := store.tables.stats

/-- The file is a favorite. -/
def isFavorite (store : Store) (id : FileId) : Bool := store.tables.isFavorite id

/-- The favorites, the latest addition first. -/
def favorites (store : Store) (limit : Nat) : List Favorite := store.tables.allFavorites.take limit

/-- The stored hashes of an algorithm that are hashes. -/
def hashEntries (store : Store) (algorithm : String) : List Similarity.Entry :=
  ((store.tables.hashes.getD []).filter fun row => row.algorithm == algorithm).filterMap fun row =>
    Similarity.Entry.read? row.file row.hash

/-- The files whose hashes of an algorithm are nearest to a hash. -/
def similarBy (store : Store) (algorithm hash : String) (threshold limit : Nat) :
    List Similarity.Match :=
  let entries := store.hashEntries algorithm
  Similarity.nearest (.ofEntries store.settings.similarity.index entries) hash threshold limit

/-- The files whose hashes of the configured algorithm are nearest to a hash. -/
def similar (store : Store) (hash : String) (threshold limit : Nat) : List Similarity.Match :=
  store.similarBy store.settings.similarity.algorithm hash threshold limit

end Store

end Catalog
