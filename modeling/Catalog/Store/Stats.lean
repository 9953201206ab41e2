import Catalog.Order.Total
import Catalog.Store.Tables

/-! Figures about a whole catalog. -/

namespace Catalog

/-- Totals over all files. -/
structure Stats where
  totalFiles : Nat := 0
  totalFavorites : Nat := 0
  totalSize : Nat := 0
  /-- The number of files of each type, in order of the types. -/
  byType : List (String × Nat) := []
  /-- The number of different contents. -/
  distinctContent : Nat := 0
deriving DecidableEq, Repr, Inhabited

namespace Tables

/-- The counts of equal texts, in order of the texts. -/
def tally (texts : List String) : List (String × Nat) :=
  texts.foldl (fun counts text => Order.put text ((Order.get? text counts).getD 0 + 1) counts) []

/-- Totals over all files. They are all zero if the sizes add up to more than a signed word of 64 bits
holds or if the table of favorites is missing. -/
def stats (tables : Tables) : Stats :=
  let size := Order.total (tables.files.map (·.size))
  match tables.favorites with
  | none => {}
  | some favorites =>
    if Nat.pow 2 63 ≤ size then {}
    else
      { totalFiles := tables.files.length
        totalFavorites := favorites.length
        totalSize := size
        byType := tally (tables.files.map (·.type))
        distinctContent := (tally (tables.files.map (·.hash))).length }

end Tables

end Catalog
