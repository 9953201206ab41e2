import Catalog.Query.Quotes

/-! The clauses of a query: its parts between the words ` AND ` outside quoted sections. -/

namespace Catalog.Query

open Catalog.Text

/-- What separates clauses. -/
def separator : List Char := [' ', 'A', 'N', 'D', ' ']

/-- The parts of a marked text between separators that start outside quoted sections. -/
def segmentsOf : List (Char × Bool) → List (List Char)
  | [] => [[]]
  | (' ', false) :: ('A', _) :: ('N', _) :: ('D', _) :: (' ', _) :: rest => [] :: segmentsOf rest
  | (c, _) :: rest =>
    match segmentsOf rest with
    | [] => [[c]]
    | segment :: segments => (c :: segment) :: segments

/-- The parts of a query between separators. -/
def segments (query : List Char) : List (List Char) := segmentsOf (marked query)

/-- The clauses of a query without the blanks around them. A blank query has none. -/
def clauses (query : List Char) : List (List Char) :=
  if (trim query).isEmpty then [] else (segments query).map trim

end Catalog.Query
