import Catalog.Order.Sort
import Catalog.Similarity.MetricTree
import Catalog.Text.Ascii

/-! Finding the files nearest to a hash. Either kind of index may answer; the result does not show
which one did. -/

namespace Catalog.Similarity

open Catalog.Order Catalog.Text

/-- The kinds of index. -/
inductive IndexKind where
  | linear
  | metric
deriving DecidableEq, Repr, Inhabited

namespace IndexKind

/-- The name of the kind in settings. -/
def name : IndexKind → String
  | .linear => "linear"
  | .metric => "bktree"

/-- The kind with exactly this name. -/
def ofName? (name : String) : Option IndexKind :=
  [linear, metric].find? fun kind => kind.name == name

/-- The name as it is looked up: without blanks around it and in small ASCII letters. -/
def folded (text : String) : String := String.ofList (lower (trim text.toList))

/-- Reads a kind from a text written by hand. -/
def read? (text : String) : Option IndexKind :=
  if folded text = "bk-tree" then some .metric else ofName? (folded text)

/-- Says that a text names no kind of index. -/
def unknownMessage (text : String) : String :=
  "Unknown similarity index '" ++ folded text ++ "'"

end IndexKind

/-- An index of either kind. -/
inductive Index where
  | linear (index : Linear)
  | metric (index : Metric)
deriving Repr

namespace Index

/-- The index of a kind without entries. -/
def empty : IndexKind → Index
  | .linear => linear .empty
  | .metric => metric .empty

/-- The index with one more entry. -/
def insert (entry : Entry) : Index → Index
  | linear index => linear (index.insert entry)
  | metric index => metric (index.insert entry)

/-- The number of entries. -/
def size : Index → Nat
  | linear index => index.size
  | metric index => index.size

/-- All entries within the threshold of the hash, in no particular order. -/
def within (query : BitHash) (threshold : Nat) : Index → List Hit
  | linear index => index.within query threshold
  | metric index => index.within query threshold

/-- The index of a kind with the given entries, inserted in order. -/
def ofEntries (kind : IndexKind) (entries : List Entry) : Index :=
  entries.foldl (fun index entry => index.insert entry) (empty kind)

end Index

/-- A file and the distance of its hash. -/
structure Match where
  file : Int
  distance : Nat
deriving DecidableEq, Repr, Inhabited

namespace Match

/-- The order of results: nearer files first, of equally near ones the one with the smaller id. -/
def precedes (a b : Match) : Bool :=
  a.distance < b.distance || a.distance == b.distance && a.file ≤ b.file

end Match

/-- Hits as matches in the order of results. -/
def ranked (hits : List Hit) : List Match :=
  sortBy Match.precedes (hits.map fun hit => ⟨hit.entry.file, hit.distance⟩)

/-- Every entry within the threshold of the hash that a text stands for. -/
def neighbours (index : Index) (text : String) (threshold : Nat) : Option (List Match) :=
  (BitHash.read? text).map fun query => ranked (index.within query threshold)

/-- The first matches for a hash text. Entries with just this text are left out, whichever file they
belong to; entries that spell the same bits in another way are not. -/
def nearest (index : Index) (text : String) (threshold limit : Nat) : List Match :=
  match BitHash.read? text with
  | none => []
  | some query =>
    (ranked ((index.within query threshold).filter fun hit => hit.entry.text ≠ text)).take limit

end Catalog.Similarity
