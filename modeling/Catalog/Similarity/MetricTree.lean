import Catalog.Similarity.Linear

/-! The metric index: a tree for each length of hash. The entries below the edge `d` of a node are at
distance `d` from the entry of the node, so that a search within a threshold need only follow the
edges that differ from the node's own distance by at most the threshold. -/

namespace Catalog.Similarity

/-- An entry and, by their distance from it, the entries that were inserted after it. -/
inductive MetricTree where
  | node (entry : Entry) (children : List (Nat × MetricTree))
deriving Repr, Inhabited

namespace MetricTree

/-- The entry at the root. -/
def root : MetricTree → Entry
  | node entry _ => entry

/-- The tree of one entry. -/
def leaf (entry : Entry) : MetricTree := node entry []

/-- The distance between hashes of one length. -/
def gap (a b : Entry) : Nat := differingBits a.hash.bytes b.hash.bytes

mutual

/-- The tree with one more entry of the same length of hash. -/
def insert (entry : Entry) : MetricTree → MetricTree
  | node top children => node top (insertBelow entry (gap top entry) children)

/-- The children with one more entry below the edge of a distance. -/
def insertBelow (entry : Entry) (distance : Nat) :
    List (Nat × MetricTree) → List (Nat × MetricTree)
  | [] => [(distance, leaf entry)]
  | (edge, child) :: rest =>
    if edge = distance then (edge, child.insert entry) :: rest
    else (edge, child) :: insertBelow entry distance rest

end

mutual

/-- The entries of the tree, each node before its children. -/
def toList : MetricTree → List Entry
  | node entry children => entry :: childrenToList children

/-- The entries below some edges. -/
def childrenToList : List (Nat × MetricTree) → List Entry
  | [] => []
  | (_, child) :: rest => child.toList ++ childrenToList rest

end

mutual

/-- The entries of the tree within the threshold of a hash. -/
def within (query : BitHash) (threshold : Nat) : MetricTree → List Hit
  | node entry children =>
    match entry.hash.distance? query with
    | some d =>
      let below := withinChildren query threshold (d - threshold) (d + threshold) children
      if d ≤ threshold then ⟨entry, d⟩ :: below else below
    | none => []

/-- The hits below the edges from `low` to `high`. -/
def withinChildren (query : BitHash) (threshold low high : Nat) :
    List (Nat × MetricTree) → List Hit
  | [] => []
  | (edge, child) :: rest =>
    let others := withinChildren query threshold low high rest
    if low ≤ edge ∧ edge ≤ high then child.within query threshold ++ others else others

end

end MetricTree

/-- The trees of the index by the number of bytes in their hashes. -/
structure Metric where
  trees : List (Nat × MetricTree)
deriving Repr

namespace Metric

/-- The index without entries. -/
def empty : Metric := ⟨[]⟩

/-- The trees with one more entry. -/
def insertInto (entry : Entry) : List (Nat × MetricTree) → List (Nat × MetricTree)
  | [] => [(entry.hash.bytes.length, .leaf entry)]
  | (length, tree) :: rest =>
    if length = entry.hash.bytes.length then (length, tree.insert entry) :: rest
    else (length, tree) :: insertInto entry rest

/-- The index with one more entry. -/
def insert (index : Metric) (entry : Entry) : Metric := ⟨insertInto entry index.trees⟩

/-- The entries of the index, tree by tree. -/
def toList (index : Metric) : List Entry := index.trees.flatMap fun (_, tree) => tree.toList

/-- The number of entries. -/
def size (index : Metric) : Nat := index.toList.length

/-- All entries within the threshold of the hash. -/
def within (index : Metric) (query : BitHash) (threshold : Nat) : List Hit :=
  match index.trees.find? fun (length, _) => length == query.bytes.length with
  | some (_, tree) => tree.within query threshold
  | none => []

end Metric

end Catalog.Similarity
