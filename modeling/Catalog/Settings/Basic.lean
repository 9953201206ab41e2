import Catalog.Field.Flatten
import Catalog.Similarity.Nearest

/-! The settings of a catalog. -/

namespace Catalog

/-- How similar files are looked for. -/
structure SimilaritySettings where
  /-- The algorithm whose hashes are compared. -/
  algorithm : String := "phash"
  index : Similarity.IndexKind := .linear
  defaultThreshold : Nat := 10
deriving DecidableEq, Repr, Inhabited

/-- The bounds on connections. -/
structure PoolSettings where
  maxSize : Nat := 8
  busyTimeoutMs : Nat := 5000
deriving DecidableEq, Repr, Inhabited

/-- All settings. -/
structure Settings where
  databasePath : String := "metavault.db"
  flatten : FlattenRules := {}
  similarity : SimilaritySettings := {}
  pool : PoolSettings := {}
deriving DecidableEq, Repr, Inhabited

end Catalog
