import Catalog.Store.Tables

/-! The ledger: one entry for each change of a field, never altered. -/

namespace Catalog

open Catalog.Order

namespace LedgerEntry

/-- The order of histories: later entries first, of one time the one with the larger id. -/
def precedes (a b : LedgerEntry) : Bool :=
  b.recorded < a.recorded || a.recorded == b.recorded && b.id ≤ a.id

end LedgerEntry

namespace Tables

/-- The later of two times. -/
def later (a b : Timestamp) : Timestamp := if a < b then b else a

/-- The time of the latest entry of a file, but no earlier than the given one. The ledger has to be
there. -/
def ledgerTime (tables : Tables) (id : FileId) (now : Timestamp) : Except Fault Timestamp := do
  let entries ← need .ledger tables.ledger
  pure ((entries.filter fun entry => entry.file == id).foldl
    (fun time entry => later time entry.recorded) now)

/-- The tables with an entry at the end of the ledger. -/
def appendEntry (tables : Tables) (id : FileId) (recorded : Timestamp) (kind : ChangeKind)
    (field : FieldKey) (old new : Option String) : Except Fault Tables := do
  let entries ← need .ledger tables.ledger
  if tables.ledgerClosed then .error .ledgerClosed
  else
    pure
      { tables with
        ledger := some (entries ++ [⟨tables.nextEntry, id, recorded, kind, field, old, new⟩])
        nextEntry := tables.nextEntry + 1 }

/-- The tables with an entry for each change of a file, in order. The ledger has to be there, even for
no change. -/
def appendChanges (tables : Tables) (id : FileId) (recorded : Timestamp) :
    List (FieldKey × Change) → Except Fault Tables
  | [] => (need .ledger tables.ledger).map fun _ => tables
  | (field, change) :: rest => do
    let tables ← tables.appendEntry id recorded change.kind field change.old? change.new?
    appendChanges tables id recorded rest

/-- All changes of a file, the latest first; none if the ledger is missing. -/
def wholeHistory (tables : Tables) (id : FileId) : List LedgerEntry :=
  sortBy LedgerEntry.precedes ((tables.ledger.getD []).filter fun entry => entry.file == id)

end Tables

end Catalog
