import Catalog.Json.Printer
import Catalog.Store.Tables

/-! Favorites: a file is one as long as it has a row. -/

namespace Catalog

open Catalog.Json Catalog.Order

/-- Tags as they are stored. -/
def tagsText (tags : List String) : String := (Value.array (tags.map .string)).compact

/-- The texts in a list that holds nothing else. -/
def strings? : List Value → Option (List String)
  | [] => some []
  | .string s :: rest => (strings? rest).map (s :: ·)
  | _ :: _ => none

/-- The tags that a stored text stands for; none if it is no list of texts. -/
def tagsOf (text : String) : List String :=
  match Value.read? text with
  | some (.array items) => (strings? items).getD []
  | _ => []

/-- A favorite as it is listed. -/
structure Favorite where
  file : FileRecord
  added : Timestamp
  notes : Option String
  tags : List String
deriving DecidableEq, Repr, Inhabited

namespace FavoriteRow

/-- The order of lists: the latest addition first, of one time the file with the larger id. -/
def precedes (a b : FavoriteRow) : Bool :=
  b.added < a.added || a.added == b.added && b.file ≤ a.file

end FavoriteRow

namespace Tables

/-- The tables with a file as a favorite. What is said about one that is there already is replaced; its
time stays. -/
def setFavorite (tables : Tables) (id : FileId) (input : FavoriteInput) (now : Timestamp) :
    Except Fault Tables := do
  let rows ← need .favorites tables.favorites
  let tags := tagsText input.tags
  if rows.any fun row => row.file == id then
    pure
      { tables with
        favorites := some (rows.map fun row =>
          if row.file == id then { row with notes := input.notes, tags } else row) }
  else pure { tables with favorites := some (rows ++ [⟨id, now, input.notes, tags⟩]) }

/-- The tables with a file turned into a favorite, or back, and whether it is one then. An unknown file
is none. -/
def toggleFavorite (tables : Tables) (id : FileId) (input : FavoriteInput) (now : Timestamp) :
    Except Fault (Tables × Bool) :=
  if (tables.file? id).isNone then .ok (tables, false)
  else do
    let rows ← need .favorites tables.favorites
    if rows.any fun row => row.file == id then
      pure ({ tables with favorites := some (rows.filter fun row => row.file != id) }, false)
    else
      let tables ← tables.setFavorite id input now
      pure (tables, true)

/-- The file is a favorite; none is if the table is missing. -/
def isFavorite (tables : Tables) (id : FileId) : Bool :=
  (tables.favorites.getD []).any fun row => row.file == id

/-- All favorites, the latest addition first. -/
def allFavorites (tables : Tables) : List Favorite :=
  (sortBy FavoriteRow.precedes (tables.favorites.getD [])).filterMap fun row =>
    (tables.file? row.file).map fun file => ⟨file, row.added, row.notes, tagsOf row.tags⟩

end Tables

end Catalog
