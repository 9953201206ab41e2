import Catalog.Import.Scan
import Catalog.Json.Value
import Catalog.Store.Archive
import Catalog.Store.Basic

/-! What commands answer, as documents. -/

namespace Catalog.Command

open Catalog.Json

/-- A stored file. -/
def fileValue (file : FileRecord) : Value :=
  .ofMembers
    [("id", integerValue file.id), ("path", .string file.path), ("content_hash", .string file.hash),
     ("size", integerValue file.size), ("mtime", integerValue file.modified),
     ("file_type", .string file.type), ("first_seen", .string file.firstSeen),
     ("last_updated", .string file.lastUpdated)]

/-- A list of things. -/
def listValue {α : Type} (toValue : α → Value) (items : List α) : Value := .array (items.map toValue)

/-- The files that a query finds. -/
def searchValue (results : SearchResults) : Value :=
  .ofMembers
    [("files", listValue fileValue results.files),
     ("parsed_clauses", integerValue results.parsedClauses),
     ("dropped_clauses", integerValue results.droppedClauses)]

/-- An entry of the ledger. -/
def entryValue (entry : LedgerEntry) : Value :=
  .ofMembers
    [("id", integerValue entry.id), ("file_id", integerValue entry.file),
     ("changed_at", .string entry.recorded), ("change_type", .string entry.kind.name),
     ("category", .string entry.field.category), ("key", .string entry.field.key),
     ("old_value", textValue entry.old), ("new_value", textValue entry.new)]

/-- Totals over all files. -/
def statsValue (stats : Stats) : Value :=
  .ofMembers
    [("total_files", integerValue stats.totalFiles),
     ("total_favorites", integerValue stats.totalFavorites),
     ("total_size", integerValue stats.totalSize),
     ("by_type", .ofMembers (stats.byType.map fun (type, count) => (type, integerValue count))),
     ("distinct_content", integerValue stats.distinctContent)]

/-- A favorite. -/
def favoriteValue (favorite : Favorite) : Value :=
  .ofMembers
    [("file", fileValue favorite.file), ("added_at", .string favorite.added),
     ("notes", textValue favorite.notes), ("tags", listValue .string favorite.tags)]

/-- A file near a hash. -/
def matchValue (found : Similarity.Match) : Value :=
  .ofMembers [("file_id", integerValue found.file), ("distance", integerValue found.distance)]

/-- The outcome of a scan. -/
def scanValue (report : Import.ScanReport) : Value :=
  .ofMembers
    [("seen", integerValue report.seen), ("stored", integerValue report.stored),
     ("failed", integerValue report.failed)]

end Catalog.Command
