import Catalog.Proofs.Store.Ledger

/-! What storing a file does. A file that is new gets the next id and its fields; one that is known has
its fields replaced and their changes entered in the ledger, or is left as it is but for its time. -/

namespace Catalog.Tables

open Catalog.Order

/-- The outcomes of storing what was extracted from the file at a path: the tables then, the id of the
file and the time under which it is stored. -/
inductive Stored (tables : Tables) (now : Timestamp) (path : String) (seen : Observation)
    (extracted : Extracted) : Tables → FileId → Timestamp → Prop
  | inserted {rows : List FieldRow}
      (hnew : tables.fileAt? path = none) (hrows : tables.fields = some rows)
      (hfits : Fits rows (fieldRows tables.nextFile extracted)) :
      Stored tables now path seen extracted
        { tables with
          files := tables.files ++
            [⟨tables.nextFile, path, seen.hash, seen.size, seen.modified, seen.type, now, now⟩]
          fields := some (rows ++ fieldRows tables.nextFile extracted)
          nextFile := tables.nextFile + 1 }
        tables.nextFile now
  | replaced {file : FileRecord} {rows : List FieldRow} {entries : List LedgerEntry}
      {changes : List (FieldKey × Change)} {time : Timestamp}
      (hfile : tables.fileAt? path = some file) (hrows : tables.fields = some rows)
      (hentries : tables.ledger = some entries)
      (htime : tables.ledgerTime file.id now = .ok time)
      (hchanges : changes = FieldMap.changes (tables.explicitOf file.id) extracted.explicit)
      (hother : file.hash ≠ seen.hash ∨ changes ≠ [] ∨
        tables.derivedOf file.id ≠ extracted.derived)
      (hfits : Fits (rows.filter fun row : FieldRow => row.file != file.id)
        (fieldRows file.id extracted)) :
      Stored tables now path seen extracted
        ({ tables with
            fields := some ((rows.filter fun row : FieldRow => row.file != file.id) ++
              fieldRows file.id extracted)
            ledger := some (entries ++ entriesFor file.id time tables.nextEntry changes)
            nextEntry := tables.nextEntry + changes.length }.updateFile file.id fun file =>
          { file with
            hash := seen.hash, size := seen.size, modified := seen.modified, type := seen.type
            lastUpdated := time })
        file.id time
  | kept {file : FileRecord} {rows : List FieldRow} {time : Timestamp}
      (hfile : tables.fileAt? path = some file) (hrows : tables.fields = some rows)
      (htime : tables.ledgerTime file.id now = .ok time) (hhash : file.hash = seen.hash)
      (hexplicit : FieldMap.changes (tables.explicitOf file.id) extracted.explicit = [])
      (hderived : tables.derivedOf file.id = extracted.derived) :
      Stored tables now path seen extracted
        (tables.updateFile file.id fun file => { file with lastUpdated := time }) file.id time

section

variable {tables tables' : Tables} {now time : Timestamp} {path : String} {seen : Observation}
  {extracted : Extracted} {id : FileId}

theorem insertFile_ok (hnew : tables.fileAt? path = none)
    (h : tables.insertFile now path seen extracted = .ok (tables', id)) :
    Stored tables now path seen extracted tables' id now := by
  rw [insertFile, bind_eq_ok_iff] at h
  obtain ⟨rows, hneed, h⟩ := h
  rw [bind_eq_ok_iff] at h
  obtain ⟨stored, hinsert, h⟩ := h
  have hrows := need_eq_ok_iff.mp hneed
  obtain ⟨rfl, hfits⟩ := insertExtracted_ok hinsert hrows
  cases h
  exact .inserted hnew hrows hfits

theorem refreshFile_ok {file : FileRecord} (hfile : tables.fileAt? path = some file)
    (htime : tables.ledgerTime file.id now = .ok time)
    (h : tables.refreshFile time file seen extracted = .ok tables') :
    Stored tables now path seen extracted tables' file.id time := by
  rw [refreshFile, bind_eq_ok_iff] at h
  obtain ⟨rows, hneed, h⟩ := h
  have hrows := need_eq_ok_iff.mp hneed
  have hexplicit : (fieldsAmong rows file.id fun row => !row.derived) = tables.explicitOf file.id := by
    rw [explicitOf, hrows, Option.getD_some]
  have hderived : (fieldsAmong rows file.id fun row => row.derived) = tables.derivedOf file.id := by
    rw [derivedOf, hrows, Option.getD_some]
  simp only [hexplicit, hderived] at h
  obtain ⟨entries, hentries, -⟩ := ledgerTime_ok htime
  split at h
  · rename_i hother
    rw [eraseFields, hrows] at h
    simp only [need, bind, Except.bind, pure, Except.pure] at h
    split at h
    · cases h
    · rename_i stored hinsert
      obtain ⟨rfl, hfits⟩ := insertExtracted_ok hinsert rfl
      split at h
      · cases h
      · rename_i appended happend
        rw [appendChanges_ok happend hentries, Except.ok.injEq] at h
        subst h
        exact .replaced hfile hrows hentries htime rfl hother hfits
  · rename_i hsame
    rw [not_or, not_or, not_not, not_not, not_not] at hsame
    cases h
    exact .kept hfile hrows htime hsame.1 hsame.2.1 hsame.2.2

theorem storeFile_ok (h : tables.storeFile now path seen extracted = .ok (tables', id, time)) :
    Stored tables now path seen extracted tables' id time := by
  rw [storeFile] at h
  split at h
  · rename_i hnew
    rw [bind_eq_ok_iff] at h
    obtain ⟨⟨stored, storedId⟩, hinsert, h⟩ := h
    cases h
    exact insertFile_ok hnew hinsert
  · rename_i file hfile
    rw [bind_eq_ok_iff] at h
    obtain ⟨latest, htime, h⟩ := h
    rw [bind_eq_ok_iff] at h
    obtain ⟨stored, hrefresh, h⟩ := h
    cases h
    exact refreshFile_ok hfile htime hrefresh

theorem putHashes_ok {hashes : List (String × String)}
    (h : tables.putHashes id hashes = .ok tables') :
    ∃ rows, tables.hashes = some rows ∧
      tables' =
        { tables with
          hashes := some
            ((rows.filter fun row => !(row.file == id && hashes.any fun h => h.1 == row.algorithm)) ++
              (keyed hashes).map fun (algorithm, hash) => ⟨id, algorithm, hash⟩) } := by
  rw [putHashes, bind_eq_ok_iff] at h
  obtain ⟨rows, hneed, h⟩ := h
  cases h
  exact ⟨rows, need_eq_ok_iff.mp hneed, rfl⟩

theorem setFavorite_ok {input : FavoriteInput} (h : tables.setFavorite id input now = .ok tables') :
    ∃ rows, tables.favorites = some rows ∧
      tables' =
        { tables with
          favorites := some
            (if rows.any fun row => row.file == id then
              rows.map fun row =>
                if row.file == id then
                  { row with notes := input.notes, tags := tagsText input.tags }
                else row
            else rows ++ [⟨id, now, input.notes, tagsText input.tags⟩]) } := by
  rw [setFavorite, bind_eq_ok_iff] at h
  obtain ⟨rows, hneed, h⟩ := h
  refine ⟨rows, need_eq_ok_iff.mp hneed, ?_⟩
  split at h <;> rename_i hany <;> cases h
  · rw [if_pos hany]
  · rw [if_neg hany]

/-- An upsert stores the file, then the hashes that are given, then the favorite. -/
theorem upsert_ok {hashes : Option (List (String × String))} {favorite : Option FavoriteInput}
    (h : tables.upsert now path seen extracted hashes favorite = .ok (tables', id)) :
    ∃ stored time marked, Stored tables now path seen extracted stored id time ∧
      (hashes = none ∧ marked = stored ∨
        ∃ given, hashes = some given ∧ stored.putHashes id given = .ok marked) ∧
      (favorite = none ∧ tables' = marked ∨
        ∃ input, favorite = some input ∧ marked.setFavorite id input time = .ok tables') := by
  rw [upsert, bind_eq_ok_iff] at h
  obtain ⟨⟨stored, storedId, time⟩, hstore, h⟩ := h
  have hstored := storeFile_ok hstore
  cases hashes with
  | none =>
    obtain ⟨marked, hmarked, h⟩ := bind_eq_ok_iff.mp h
    cases hmarked
    cases favorite with
    | none =>
      cases h
      exact ⟨_, _, _, hstored, .inl ⟨rfl, rfl⟩, .inl ⟨rfl, rfl⟩⟩
    | some input =>
      obtain ⟨favored, hset, h⟩ := bind_eq_ok_iff.mp h
      cases h
      exact ⟨_, _, _, hstored, .inl ⟨rfl, rfl⟩, .inr ⟨input, rfl, hset⟩⟩
  | some given =>
    obtain ⟨marked, hput, h⟩ := bind_eq_ok_iff.mp h
    cases favorite with
    | none =>
      cases h
      exact ⟨_, _, _, hstored, .inr ⟨given, rfl, hput⟩, .inl ⟨rfl, rfl⟩⟩
    | some input =>
      obtain ⟨favored, hset, h⟩ := bind_eq_ok_iff.mp h
      cases h
      exact ⟨_, _, _, hstored, .inr ⟨given, rfl, hput⟩, .inr ⟨input, rfl, hset⟩⟩

/-- Past the tables of hashes and favorites an upsert only stores the file. -/
theorem upsert_stored {hashes : Option (List (String × String))} {favorite : Option FavoriteInput}
    (h : tables.upsert now path seen extracted hashes favorite = .ok (tables', id)) :
    ∃ stored time hashRows favoriteRows, Stored tables now path seen extracted stored id time ∧
      tables' = { stored with hashes := hashRows, favorites := favoriteRows } := by
  obtain ⟨stored, time, marked, hstored, hhashes, hfavorite⟩ := upsert_ok h
  have hmarked : ∃ hashRows, marked = { stored with hashes := hashRows } := by
    rcases hhashes with ⟨-, rfl⟩ | ⟨given, -, hput⟩
    · exact ⟨_, rfl⟩
    · obtain ⟨rows, -, rfl⟩ := putHashes_ok hput
      exact ⟨_, rfl⟩
  obtain ⟨hashRows, rfl⟩ := hmarked
  rcases hfavorite with ⟨-, rfl⟩ | ⟨input, -, hset⟩
  · exact ⟨stored, time, hashRows, stored.favorites, hstored, rfl⟩
  · obtain ⟨rows, -, rfl⟩ := setFavorite_ok hset
    exact ⟨stored, time, hashRows, _, hstored, rfl⟩

end

end Catalog.Tables
