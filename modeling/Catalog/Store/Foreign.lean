import Catalog.Store.Basic

/-! Changes that others make to the tables of a catalog, past its own operations. -/

namespace Catalog

namespace Store

/-- An entry that is added to the ledger by hand. -/
structure ForeignEntry where
  file : FileId
  recorded : Timestamp
  kind : String
  field : FieldKey
  old : Option String
  new : Option String

/-- Adds an entry to the ledger. Its kind and its file have to be known. -/
def addEntry (store : Store) (entry : ForeignEntry) : Store × Except StoreError Unit :=
  store.commit do
    match ChangeKind.ofName? entry.kind with
    | none => .error (.unknownChangeKind entry.kind)
    | some kind =>
      let tables ← store.tables.appendEntry entry.file entry.recorded kind entry.field entry.old
        entry.new
      if (store.tables.file? entry.file).isNone then .error (.unknownFile entry.file)
      else pure (tables, ())

/-- Tries to change the entries of the ledger, which is refused if it has any. -/
def alterLedger (store : Store) : Store × Except StoreError Unit :=
  store.commit do
    let entries ← Tables.need .ledger store.tables.ledger
    if entries.isEmpty then pure (store.tables, ()) else .error .ledgerAltered

/-- Lets the ledger take no more entries. -/
def closeLedger (store : Store) : Store × Except StoreError Unit :=
  store.commit do
    let _ ← Tables.need .ledger store.tables.ledger
    pure ({ store.tables with ledgerClosed := true }, ())

/-- Replaces the stored text of a favorite's tags. -/
def setTagsText (store : Store) (id : FileId) (tags : String) : Store × Except StoreError Unit :=
  store.commit do
    let rows ← Tables.need .favorites store.tables.favorites
    let rows := rows.map fun row => if row.file == id then { row with tags } else row
    pure ({ store.tables with favorites := some rows }, ())

/-- The tables without one of them. A new ledger numbers its entries from the start and is open. -/
def dropTable (store : Store) (table : Table) : Store × Except StoreError Unit :=
  let tables := store.tables
  store.commit <| match table with
    | .fields => (Tables.need table tables.fields).map fun _ => ({ tables with fields := none }, ())
    | .ledger =>
      (Tables.need table tables.ledger).map fun _ =>
        ({ tables with ledger := none, nextEntry := 1, ledgerClosed := false }, ())
    | .hashes => (Tables.need table tables.hashes).map fun _ => ({ tables with hashes := none }, ())
    | .favorites =>
      (Tables.need table tables.favorites).map fun _ => ({ tables with favorites := none }, ())

end Store

end Catalog
