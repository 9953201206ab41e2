import Catalog.Field.Change

/-! What a catalog knows about a file. -/

namespace Catalog

/-- A file of the catalog. Ids are positive; a look-up may ask for any number. -/
abbrev FileId := Int

/-- A reading of the clock as text. Later readings sort later. -/
abbrev Timestamp := String

/-- A stored file. -/
structure FileRecord where
  id : FileId
  path : String
  /-- The digest of the bytes. -/
  hash : String
  size : Nat
  /-- The time of the last change of the bytes, in seconds since the epoch. -/
  modified : Int
  type : String
  firstSeen : Timestamp
  lastUpdated : Timestamp
deriving DecidableEq, Repr, Inhabited

/-- What is seen of a file when it is stored. -/
structure Observation where
  hash : String
  size : Nat
  modified : Int
  type : String
deriving DecidableEq, Repr, Inhabited

/-- A stored field of a file. -/
structure FieldRow where
  file : FileId
  field : FieldKey
  value : String
  /-- The value was derived from other fields when the file was stored. -/
  derived : Bool
deriving DecidableEq, Repr, Inhabited

/-- A change of a field of a file. -/
structure LedgerEntry where
  id : Nat
  file : FileId
  recorded : Timestamp
  kind : ChangeKind
  field : FieldKey
  old : Option String
  new : Option String
deriving DecidableEq, Repr, Inhabited

/-- A perceptual hash of a file. -/
structure HashRow where
  file : FileId
  algorithm : String
  hash : String
deriving DecidableEq, Repr, Inhabited

/-- A favorite file. -/
structure FavoriteRow where
  file : FileId
  added : Timestamp
  notes : Option String
  /-- The tags as a JSON list. -/
  tags : String
deriving DecidableEq, Repr, Inhabited

/-- What a user says about a favorite. -/
structure FavoriteInput where
  notes : Option String
  tags : List String
deriving DecidableEq, Repr, Inhabited

end Catalog
