import Catalog.Json.Printer
import Catalog.Store.Tables
import Catalog.Text.Utf8

/-! Tables as the bytes of a file: a document with a list for every table and a list for every row. A
table that is missing is null. -/

namespace Catalog

open Catalog.Json

/-- An integer as a value. -/
def integerValue (n : Int) : Value := .number (.integer n)

/-- A text that may be missing as a value. -/
def textValue : Option String → Value
  | some text => .string text
  | none => .null

/-- The text that a value stands for; null stands for a missing one. -/
def textOfValue? : Value → Option (Option String)
  | .null => some none
  | .string text => some (some text)
  | _ => none

namespace FileRecord

/-- A file as a row. -/
def toRow (file : FileRecord) : Value :=
  .array
    [integerValue file.id, .string file.path, .string file.hash, integerValue file.size,
     integerValue file.modified, .string file.type, .string file.firstSeen,
     .string file.lastUpdated]

/-- The file that a row stands for. -/
def ofRow? : Value → Option FileRecord
  | .array
      [.number (.integer id), .string path, .string hash, .number (.integer size),
       .number (.integer modified), .string type, .string firstSeen, .string lastUpdated] =>
    some ⟨id, path, hash, size.toNat, modified, type, firstSeen, lastUpdated⟩
  | _ => none

theorem ofRow?_toRow (file : FileRecord) : ofRow? file.toRow = some file := rfl

end FileRecord

namespace FieldRow

/-- A field as a row. -/
def toRow (row : FieldRow) : Value :=
  .array
    [integerValue row.file, .string row.field.category, .string row.field.key, .string row.value,
     .bool row.derived]

/-- The field that a row stands for. -/
def ofRow? : Value → Option FieldRow
  | .array
      [.number (.integer file), .string category, .string key, .string value, .bool derived] =>
    some ⟨file, ⟨category, key⟩, value, derived⟩
  | _ => none

theorem ofRow?_toRow (row : FieldRow) : ofRow? row.toRow = some row := rfl

end FieldRow

namespace LedgerEntry

/-- An entry of the ledger as a row. -/
def toRow (entry : LedgerEntry) : Value :=
  .array
    [integerValue entry.id, integerValue entry.file, .string entry.recorded,
     .string entry.kind.name, .string entry.field.category, .string entry.field.key,
     textValue entry.old, textValue entry.new]

/-- The entry that a row stands for. -/
def ofRow? : Value → Option LedgerEntry
  | .array
      [.number (.integer id), .number (.integer file), .string recorded, .string kind,
       .string category, .string key, old, new] => do
    let kind ← ChangeKind.ofName? kind
    let old ← textOfValue? old
    let new ← textOfValue? new
    pure ⟨id.toNat, file, recorded, kind, ⟨category, key⟩, old, new⟩
  | _ => none

end LedgerEntry

namespace HashRow

/-- A hash as a row. -/
def toRow (row : HashRow) : Value :=
  .array [integerValue row.file, .string row.algorithm, .string row.hash]

/-- The hash that a row stands for. -/
def ofRow? : Value → Option HashRow
  | .array [.number (.integer file), .string algorithm, .string hash] =>
    some ⟨file, algorithm, hash⟩
  | _ => none

theorem ofRow?_toRow (row : HashRow) : ofRow? row.toRow = some row := rfl

end HashRow

namespace FavoriteRow

/-- A favorite as a row. -/
def toRow (row : FavoriteRow) : Value :=
  .array [integerValue row.file, .string row.added, textValue row.notes, .string row.tags]

/-- The favorite that a row stands for. -/
def ofRow? : Value → Option FavoriteRow
  | .array [.number (.integer file), .string added, notes, .string tags] =>
    (textOfValue? notes).map fun notes => ⟨file, added, notes, tags⟩
  | _ => none

end FavoriteRow

namespace Tables

/-- The rows of a table as a value. -/
def tableValue {α : Type} (toRow : α → Value) : Option (List α) → Value
  | some rows => .array (rows.map toRow)
  | none => .null

/-- The rows that a value stands for. -/
def tableOfValue? {α : Type} (ofRow? : Value → Option α) : Value → Option (Option (List α))
  | .null => some none
  | .array rows => (rows.mapM ofRow?).map some
  | _ => none

/-- The first text of every archive. -/
def archiveMark : String := "catalog"

/-- The tables as a document. -/
def toArchive (tables : Tables) : Value :=
  .array
    [.string archiveMark, tableValue FileRecord.toRow (some tables.files),
     tableValue FieldRow.toRow tables.fields, tableValue LedgerEntry.toRow tables.ledger,
     tableValue HashRow.toRow tables.hashes, tableValue FavoriteRow.toRow tables.favorites,
     integerValue tables.nextFile, integerValue tables.nextEntry, .bool tables.ledgerClosed]

/-- The tables that a document stands for. -/
def ofArchive? : Value → Option Tables
  | .array
      [.string mark, .array files, fields, ledger, hashes, favorites,
       .number (.integer nextFile), .number (.integer nextEntry), .bool ledgerClosed] => do
    if mark ≠ archiveMark then none
    else
      let files ← files.mapM FileRecord.ofRow?
      let fields ← tableOfValue? FieldRow.ofRow? fields
      let ledger ← tableOfValue? LedgerEntry.ofRow? ledger
      let hashes ← tableOfValue? HashRow.ofRow? hashes
      let favorites ← tableOfValue? FavoriteRow.ofRow? favorites
      pure
        { files, fields, ledger, hashes, favorites, nextFile, nextEntry := nextEntry.toNat,
          ledgerClosed }
  | _ => none

/-- The tables as the bytes of a file. -/
def toBytes (tables : Tables) : List UInt8 := Text.toBytes tables.toArchive.compact

/-- The tables that the bytes of a file stand for; an empty file stands for new ones. -/
def ofBytes? (bytes : List UInt8) : Option Tables :=
  if bytes.isEmpty then some {}
  else ((Text.ofBytes? bytes).bind Value.read?).bind ofArchive?

end Tables

end Catalog
