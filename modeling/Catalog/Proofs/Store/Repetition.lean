import Catalog.Proofs.Store.Account

/-! Storing the same again. The second time nothing is left to do: fields are kept, the rows of hashes and
of the favorite are put where they are, and only the time moves. -/

namespace Catalog

open Catalog.Order

/-! ### Rows that are put again -/

/-- The rows of hashes with the given ones of a file among them, in place of those under the same
algorithms. -/
def mergedRows (id : FileId) (given : List (String × String)) (rows : List HashRow) : List HashRow :=
  (rows.filter fun row => !(row.file == id && given.any fun hash => hash.1 == row.algorithm)) ++
    hashRows id (keyed given)

/-- The rows of favorites after something is said of a file: a row that is there keeps its time. -/
def notedRows (id : FileId) (now : Timestamp) (input : FavoriteInput) (rows : List FavoriteRow) :
    List FavoriteRow :=
  if rows.any fun row => row.file == id then
    rows.map fun row =>
      if row.file == id then { row with notes := input.notes, tags := tagsText input.tags } else row
  else rows ++ [⟨id, now, input.notes, tagsText input.tags⟩]

variable {id : FileId} {given : List (String × String)} {input : FavoriteInput}
  {now now' : Timestamp}

theorem mergedRows_mergedRows (rows : List HashRow) :
    mergedRows id given (mergedRows id given rows) = mergedRows id given rows := by
  have hput : (hashRows id (keyed given)).filter
      (fun row => !(row.file == id && given.any fun hash => hash.1 == row.algorithm)) = [] := by
    apply List.filter_eq_nil_iff.mpr
    intro row hrow
    obtain ⟨hash, hhash, rfl⟩ := List.mem_map.mp hrow
    obtain ⟨given', hgiven, hsame⟩ := List.mem_map.mp
      (mem_map_fst_keyed.mp (List.mem_map.mpr ⟨hash, hhash, rfl⟩))
    have hany : (given.any fun other => other.1 == hash.1) = true :=
      List.any_eq_true.mpr ⟨given', hgiven, beq_iff_eq.mpr hsame⟩
    simp [hany]
  rw [mergedRows, mergedRows, List.filter_append, hput, List.append_nil, List.filter_filter]
  simp only [Bool.and_self]

theorem notedRows_notedRows (rows : List FavoriteRow) :
    notedRows id now' input (notedRows id now input rows) = notedRows id now input rows := by
  unfold notedRows
  split
  · rename_i hnoted
    have hstill : ((rows.map fun row => if row.file == id then
        { row with notes := input.notes, tags := tagsText input.tags } else row).any
          fun row => row.file == id) = true := by
      obtain ⟨row, hrow, hfile⟩ := List.any_eq_true.mp hnoted
      refine List.any_eq_true.mpr ⟨_, List.mem_map.mpr ⟨row, hrow, rfl⟩, ?_⟩
      rw [if_pos hfile]
      exact hfile
    rw [if_pos hstill, List.map_map]
    refine List.map_congr_left fun row _ => ?_
    by_cases hfile : row.file = id <;> simp [hfile]
  · rename_i hnone
    have hstill : ((rows ++ [(⟨id, now, input.notes, tagsText input.tags⟩ : FavoriteRow)]).any
        fun row => row.file == id) = true := by
      simp
    rw [if_pos hstill, List.map_append]
    congr 1
    · refine (List.map_congr_left fun row hrow => if_neg ?_).trans (List.map_id' _)
      exact fun hfile => hnone (List.any_eq_true.mpr ⟨row, hrow, hfile⟩)
    · simp

namespace Tables

variable {tables tables' stored : Tables} {time : Timestamp} {path : String}
  {seen seen' : Observation} {extracted : Extracted} {hashes : Option (List (String × String))}
  {favorite : Option FavoriteInput}

/-- The tables with the time of a file moved. -/
def touch (tables : Tables) (id : FileId) (time : Timestamp) : Tables :=
  tables.updateFile id fun file => { file with lastUpdated := time }

theorem putHashes_eq {rows : List HashRow} (hrows : tables.hashes = some rows) (id : FileId)
    (given : List (String × String)) :
    tables.putHashes id given =
      .ok { tables with hashes := some (mergedRows id given rows) } := by
  rw [putHashes, hrows]
  rfl

theorem setFavorite_eq {rows : List FavoriteRow} (hrows : tables.favorites = some rows)
    (id : FileId) (input : FavoriteInput) (now : Timestamp) :
    tables.setFavorite id input now =
      .ok { tables with favorites := some (notedRows id now input rows) } := by
  rw [setFavorite, hrows, notedRows]
  simp only [need, bind, Except.bind]
  split <;> rfl

theorem Stored.exists_fields (h : Stored tables now path seen extracted tables' id time) :
    ∃ rows, tables'.fields = some rows := by
  cases h with
  | inserted => exact ⟨_, rfl⟩
  | replaced => exact ⟨_, rfl⟩
  | kept hfile hrows => exact ⟨_, hrows⟩

/-- The record of the file that was stored has the digest of what was seen. -/
theorem Stored.hash_eq (h : Stored tables now path seen extracted tables' id time)
    (hconsistent : tables.Consistent) {file : FileRecord} (hfile : tables'.file? id = some file) :
    file.hash = seen.hash := by
  cases hknown : tables.fileAt? path with
  | none =>
    rw [h.file?_of_new hconsistent hknown] at hfile
    cases hfile
    rfl
  | some old =>
    rw [h.file?_of_fileAt? hconsistent hknown] at hfile
    cases hfile
    rw [Account.seenAgain]
    split
    · rename_i hsame
      exact hsame.1
    · rfl

/-- What was seen and extracted is stored for the path already. -/
structure Holding (tables : Tables) (path : String) (hash : String) (extracted : Extracted)
    (id : FileId) : Prop where
  record : ∃ file, tables.fileAt? path = some file ∧ file.id = id ∧ file.hash = hash
  fields : ∃ rows, tables.fields = some rows
  explicit : tables.explicitOf id = extracted.explicit
  derived : tables.derivedOf id = extracted.derived

theorem Holding.storeFile (h : Holding tables path seen.hash extracted id)
    (hordered : extracted.Ordered) (htime : tables.ledgerTime id now = .ok time) :
    tables.storeFile now path seen extracted =
      .ok (tables.touch id time, id, time) := by
  obtain ⟨file, hfile, rfl, hhash⟩ := h.record
  obtain ⟨rows, hrows⟩ := h.fields
  have hexplicit : (fieldsAmong rows file.id fun row => !row.derived) = extracted.explicit := by
    rw [← h.explicit, explicitOf, hrows, Option.getD_some]
  have hderived : (fieldsAmong rows file.id fun row => row.derived) = extracted.derived := by
    rw [← h.derived, derivedOf, hrows, Option.getD_some]
  have hchanges : FieldMap.changes extracted.explicit extracted.explicit = [] :=
    (FieldMap.changes_eq_nil_iff hordered.explicit hordered.explicit).mpr rfl
  rw [Tables.storeFile, hfile]
  dsimp only
  rw [htime]
  simp only [bind, Except.bind, refreshFile, hrows, need, hexplicit, hderived, hchanges, hhash]
  simp [pure, Except.pure, touch]

theorem upsert_holding (hconsistent : tables.Consistent) (hordered : extracted.Ordered)
    (h : tables.upsert now path seen extracted hashes favorite = .ok (tables', id)) :
    Holding tables' path seen.hash extracted id := by
  obtain ⟨stored, time, hashRows, favoriteRows, hstored, rfl⟩ := upsert_stored h
  have hafter := (hconsistent.upsert h).1
  obtain ⟨file, hfile, hpath, hid⟩ := hstored.exists_file
  have hstoredConsistent := (hstored.consistent hconsistent).1
  have hrecord : stored.file? id = some file :=
    hstoredConsistent.file?_eq_some_iff.mpr ⟨hfile, hid⟩
  obtain ⟨hexplicit, hderived⟩ := hstored.fields_eq hconsistent hordered
  exact ⟨⟨file, hafter.fileAt?_eq_some_iff.mpr ⟨hfile, hpath⟩, hid,
    hstored.hash_eq hconsistent hrecord⟩, hstored.exists_fields, hexplicit, hderived⟩

/-- The rows that an upsert puts are there when it is done. -/
theorem upsert_rows
    (h : tables.upsert now path seen extracted hashes favorite = .ok (tables', id)) :
    (∀ given, hashes = some given → ∃ rows, tables'.hashes = some rows ∧
        mergedRows id given rows = rows) ∧
      ∀ input, favorite = some input → ∃ rows, tables'.favorites = some rows ∧
        ∀ now, notedRows id now input rows = rows := by
  obtain ⟨stored, time, marked, hstored, hhashes, hfavorite⟩ := upsert_ok h
  have hput : ∀ given, hashes = some given → ∃ rows, marked.hashes = some rows ∧
      mergedRows id given rows = rows := by
    intro given hgiven
    rcases hhashes with ⟨hnone, -⟩ | ⟨other, hother, hput⟩
    · rw [hgiven] at hnone
      cases hnone
    · obtain rfl : other = given := Option.some.inj (hother.symm.trans hgiven)
      obtain ⟨rows, hrows, rfl⟩ := putHashes_ok hput
      exact ⟨_, rfl, mergedRows_mergedRows rows⟩
  rcases hfavorite with ⟨hnone, rfl⟩ | ⟨other, hother, hset⟩
  · refine ⟨hput, fun input hinput => ?_⟩
    rw [hinput] at hnone
    cases hnone
  · obtain ⟨rows, hrows, -⟩ := setFavorite_ok hset
    rw [setFavorite_eq hrows] at hset
    cases hset
    refine ⟨hput, fun input hinput => ?_⟩
    obtain rfl : other = input := Option.some.inj (hother.symm.trans hinput)
    exact ⟨_, rfl, fun _ => notedRows_notedRows rows⟩

/-- The same upsert again, of bytes with the same digest, moves the time of the file. -/
theorem upsert_again (hconsistent : tables.Consistent) (hordered : extracted.Ordered)
    (h : tables.upsert now path seen extracted hashes favorite = .ok (tables', id))
    (hhash : seen'.hash = seen.hash) (htime : tables'.ledgerTime id now' = .ok time) :
    tables'.upsert now' path seen' extracted hashes favorite = .ok (tables'.touch id time, id) := by
  have hholding := upsert_holding hconsistent hordered h
  rw [← hhash] at hholding
  obtain ⟨hhashes, hfavorite⟩ := upsert_rows h
  have hput : ∀ given, hashes = some given →
      (tables'.touch id time).putHashes id given = .ok (tables'.touch id time) := by
    intro given hgiven
    obtain ⟨rows, hrows, hsame⟩ := hhashes given hgiven
    rw [putHashes_eq (show (tables'.touch id time).hashes = some rows from hrows), hsame, ← hrows]
    rfl
  have hset : ∀ input, favorite = some input →
      (tables'.touch id time).setFavorite id input time = .ok (tables'.touch id time) := by
    intro input hinput
    obtain ⟨rows, hrows, hsame⟩ := hfavorite input hinput
    rw [setFavorite_eq (show (tables'.touch id time).favorites = some rows from hrows), hsame,
      ← hrows]
    rfl
  rw [upsert, hholding.storeFile hordered htime]
  cases hashes with
  | none =>
    cases favorite with
    | none => rfl
    | some input => simp only [bind, Except.bind, pure, Except.pure, hset input rfl]
  | some given =>
    cases favorite with
    | none => simp only [bind, Except.bind, pure, Except.pure, hput given rfl]
    | some input =>
      simp only [bind, Except.bind, pure, Except.pure, hput given rfl, hset input rfl]

theorem upsert_without_ledger {file : FileRecord} (hfile : tables.fileAt? path = some file)
    (hledger : tables.ledger = none) :
    tables.upsert now path seen extracted hashes favorite = .error (.missing .ledger) := by
  rw [upsert, storeFile, hfile]
  dsimp only
  rw [ledgerTime, hledger]
  rfl

end Tables

end Catalog
