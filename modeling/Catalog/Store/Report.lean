import Catalog.Store.Basic

/-! Reports: everything that a catalog knows, in an order that does not depend on ids. -/

namespace Catalog

/-- Everything about one file, as a report shows it. -/
structure FileReport where
  file : FileRecord
  fields : FieldMap
  hashes : List (String × String)
  /-- The changes, the oldest first. -/
  history : List LedgerEntry
deriving Repr

namespace Store

/-- A report of every stored file in order of the paths. -/
def report (store : Store) : List FileReport :=
  (Order.sortBy (fun a b : FileRecord => decide (a.path ≤ b.path)) store.tables.files).map
    fun file =>
      ⟨file, store.fields file.id, store.hashes file.id, (store.tables.wholeHistory file.id).reverse⟩

/-- The paths of all files that a query finds, in order. -/
def searchPaths (store : Store) (query : String) : List String :=
  let compiled := Query.compile store.settings.flatten.normalizedCategory query
  Order.sortBy (fun a b => decide (a ≤ b)) ((store.tables.select compiled.predicates).map (·.path))

end Store

end Catalog
