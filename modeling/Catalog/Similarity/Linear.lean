import Catalog.Similarity.Hash

/-! The plain index: a list of entries, each compared with the hash that is looked for. -/

namespace Catalog.Similarity

/-- The entry as a hit, if it is within the threshold of the hash. -/
def hit? (query : BitHash) (threshold : Nat) (entry : Entry) : Option Hit :=
  match entry.hash.distance? query with
  | some d => if d ≤ threshold then some ⟨entry, d⟩ else none
  | none => none

/-- Entries in the order in which they were inserted. -/
structure Linear where
  entries : List Entry
deriving Repr

namespace Linear

/-- The index without entries. -/
def empty : Linear := ⟨[]⟩

/-- The index with one more entry. -/
def insert (index : Linear) (entry : Entry) : Linear := ⟨index.entries ++ [entry]⟩

/-- The number of entries. -/
def size (index : Linear) : Nat := index.entries.length

/-- All entries within the threshold of the hash. -/
def within (index : Linear) (query : BitHash) (threshold : Nat) : List Hit :=
  index.entries.filterMap (hit? query threshold)

end Linear

end Catalog.Similarity
