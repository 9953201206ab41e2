import Catalog.Proofs.Store.Run

/-! What the tables hold of one file. A change of the tables that is about one file leaves what they hold
of all others as it is. -/

namespace Catalog

open Catalog.Order

/-- All that the tables hold of one file. -/
@[ext]
structure Dossier where
  record : Option FileRecord := none
  fields : List FieldRow := []
  entries : List LedgerEntry := []
  hashes : List HashRow := []
  favorites : List FavoriteRow := []
deriving DecidableEq, Repr

/-- What the tables hold of a file. -/
def Tables.dossier (tables : Tables) (id : FileId) : Dossier where
  record := tables.file? id
  fields := (tables.fields.getD []).filter fun row => row.file == id
  entries := (tables.ledger.getD []).filter fun entry => entry.file == id
  hashes := (tables.hashes.getD []).filter fun row => row.file == id
  favorites := (tables.favorites.getD []).filter fun row => row.file == id

def hashRows (id : FileId) (hashes : List (String × String)) : List HashRow :=
  hashes.map fun (algorithm, hash) => ⟨id, algorithm, hash⟩

/-- The hashes of a file with the given ones in place of those under the same algorithms. -/
def mergedHashes (id : FileId) (given : Option (List (String × String))) (rows : List HashRow) :
    List HashRow :=
  match given with
  | none => rows
  | some given =>
    (rows.filter fun row => !given.any fun hash => hash.1 == row.algorithm) ++
      hashRows id (keyed given)

/-- The favorite rows of a file after something is said of it: a row that is there keeps its time. -/
def notedFavorites (id : FileId) (now : Timestamp) (given : Option FavoriteInput)
    (rows : List FavoriteRow) : List FavoriteRow :=
  match given with
  | none => rows
  | some input =>
    if rows.isEmpty then [⟨id, now, input.notes, tagsText input.tags⟩]
    else rows.map fun row => { row with notes := input.notes, tags := tagsText input.tags }

theorem map_hashRows (id : FileId) (hashes : List (String × String)) :
    (hashRows id hashes).map (fun row => (row.algorithm, row.hash)) = hashes := by
  rw [hashRows, List.map_map]
  exact List.map_id' _

/-! ### Rows of one file -/

section Rows

variable {α : Type} {file : α → FileId} {id other : FileId} {rows new : List α}

theorem filter_file_append (hne : other ≠ id) (hnew : ∀ row ∈ new, file row = id) :
    (rows ++ new).filter (fun row => file row == other) =
      rows.filter fun row => file row == other := by
  have hnone : new.filter (fun row => file row == other) = [] := by
    refine List.filter_eq_nil_iff.mpr fun row hrow => ?_
    rw [hnew row hrow]
    simpa using hne.symm
  rw [List.filter_append, hnone, List.append_nil]

theorem filter_file_filter {keep : α → Bool} (h : ∀ row ∈ rows, file row = other → keep row) :
    (rows.filter keep).filter (fun row => file row == other) =
      rows.filter fun row => file row == other := by
  rw [List.filter_filter]
  refine List.filter_congr fun row hrow => ?_
  by_cases hfile : file row = other
  · simp [hfile, h row hrow hfile]
  · simp [hfile]

theorem filter_file_erase :
    (rows.filter fun row => file row != id).filter (fun row => file row == id) = [] := by
  refine List.filter_eq_nil_iff.mpr fun row hrow => ?_
  have hne := (List.mem_filter.mp hrow).2
  simpa using hne

theorem filter_file_map {change : α → α} (h : ∀ row, file (change row) = file row) :
    (rows.map change).filter (fun row => file row == other) =
      (rows.filter fun row => file row == other).map change := by
  rw [List.filter_map]
  simp [Function.comp_def, h]

end Rows

namespace Tables

variable {tables tables' : Tables} {id other : FileId}

theorem file?_updateFile_of_ne {change : FileRecord → FileRecord} (hne : other ≠ id)
    (hid : ∀ file, (change file).id = file.id) :
    (tables.updateFile id change).file? other = tables.file? other := by
  rw [file?, updateFile, List.find?_map]
  have hsame : ((fun file : FileRecord => file.id == other) ∘
      fun file => if file.id == id then change file else file) = fun file => file.id == other := by
    funext file
    by_cases hfile : file.id = id <;> simp [hfile, hid]
  rw [hsame, ← file?]
  cases hfound : tables.file? other with
  | none => rfl
  | some file =>
    have hother : file.id = other := by simpa using List.find?_some hfound
    simp [hother, hne]

theorem find?_files_append_of_ne {files : List FileRecord} {file : FileRecord}
    (hne : other ≠ file.id) :
    (files ++ [file]).find? (fun file => file.id == other) =
      files.find? fun file => file.id == other := by
  have hlast : [file].find? (fun file => file.id == other) = none := by
    simpa using hne.symm
  rw [List.find?_append, hlast, Option.or_none]

theorem file?_eraseFile_of_ne (hne : other ≠ id) :
    (tables.eraseFile id).file? other = tables.file? other := by
  rw [file?, eraseFile, List.find?_filter, file?]
  congr 1
  funext file
  by_cases hfile : file.id = other <;> simp [hfile, hne]

theorem dossier_complete (tables : Tables) (id : FileId) :
    tables.complete.dossier id = tables.dossier id := rfl

/-- Nothing is held of a file that is erased, and as much as before of others. -/
theorem dossier_eraseFile (tables : Tables) (id other : FileId) :
    (tables.eraseFile id).dossier other = if other = id then {} else tables.dossier other := by
  split
  · rename_i heq
    subst heq
    have hrecord : (tables.eraseFile other).file? other = none :=
      List.find?_eq_none.mpr fun file hfile => by simpa using (List.mem_filter.mp hfile).2
    rw [dossier, hrecord]
    simp only [eraseFile, getD_map_filter, filter_file_erase]
  · rename_i hne
    have hkeep : ∀ {id' : FileId}, id' = other → (id' != id) = true := by
      rintro _ rfl
      simpa using hne
    rw [dossier, file?_eraseFile_of_ne hne, dossier]
    simp only [eraseFile, getD_map_filter]
    rw [filter_file_filter fun row _ h => hkeep h, filter_file_filter fun row _ h => hkeep h,
      filter_file_filter fun row _ h => hkeep h, filter_file_filter fun row _ h => hkeep h]

section Storing

variable {now time : Timestamp} {path : String} {seen : Observation} {extracted : Extracted}

theorem Stored.dossier_of_ne (h : Stored tables now path seen extracted tables' id time)
    (hne : other ≠ id) : tables'.dossier other = tables.dossier other := by
  cases h with
  | inserted hnew hrows hfits =>
    ext1
    · exact find?_files_append_of_ne hne
    · rw [dossier, dossier, hrows]
      exact filter_file_append hne fun row hrow => file_of_mem_fieldRows hrow
    all_goals rfl
  | @replaced file rows entries changes time hfile hrows hentries htime hchanges hother hfits =>
    ext1
    · exact file?_updateFile_of_ne hne fun _ => rfl
    · rw [dossier, dossier, hrows]
      refine (filter_file_append hne fun row hrow => file_of_mem_fieldRows hrow).trans
        (filter_file_filter fun row _ hrow => ?_)
      simpa [hrow] using hne
    · rw [dossier, dossier, hentries]
      exact filter_file_append hne fun entry hentry => (mem_entriesFor hentry).1
    all_goals rfl
  | kept =>
    ext1
    · exact file?_updateFile_of_ne hne fun _ => rfl
    all_goals rfl

theorem Stored.hashes_eq (h : Stored tables now path seen extracted tables' id time) :
    tables'.hashes = tables.hashes ∧ tables'.favorites = tables.favorites := by
  cases h <;> exact ⟨rfl, rfl⟩

theorem putHashes_dossier {given : List (String × String)}
    (h : tables.putHashes id given = .ok tables') :
    (∀ other ≠ id, tables'.dossier other = tables.dossier other) ∧
      tables'.dossier id =
        { tables.dossier id with
          hashes := mergedHashes id (some given) (tables.dossier id).hashes } := by
  obtain ⟨rows, hrows, rfl⟩ := putHashes_ok h
  have hadded : ∀ row ∈ hashRows id (keyed given), row.file = id := by
    intro row hrow
    obtain ⟨entry, -, rfl⟩ := List.mem_map.mp hrow
    rfl
  constructor
  · intro other hne
    ext1
    case hashes =>
      rw [dossier, dossier, hrows]
      refine (filter_file_append hne hadded).trans (filter_file_filter fun row _ hrow => ?_)
      simp [hrow, hne]
    all_goals rfl
  · ext1
    case hashes =>
      have hkept : ∀ row : HashRow, (row.file == id &&
          !(row.file == id && given.any fun hash => hash.1 == row.algorithm)) =
            (row.file == id && !given.any fun hash => hash.1 == row.algorithm) := by
        intro row
        cases row.file == id <;> rfl
      have hall := List.filter_eq_self.mpr fun row hrow => beq_iff_eq.mpr (hadded row hrow)
      rw [dossier, dossier, hrows, mergedHashes]
      simp only [Option.getD_some, List.filter_append, List.filter_filter]
      refine congrArg₂ (· ++ ·) (List.filter_congr fun row _ => ?_) hall
      exact (hkept row).trans (Bool.and_comm _ _)
    all_goals rfl

theorem setFavorite_dossier {input : FavoriteInput}
    (h : tables.setFavorite id input now = .ok tables') :
    (∀ other ≠ id, tables'.dossier other = tables.dossier other) ∧
      tables'.dossier id =
        { tables.dossier id with
          favorites := notedFavorites id now (some input) (tables.dossier id).favorites } := by
  obtain ⟨rows, hrows, rfl⟩ := setFavorite_ok h
  have hfile : ∀ row : FavoriteRow, (if row.file == id then
      { row with notes := input.notes, tags := tagsText input.tags } else row).file = row.file := by
    intro row
    split <;> rfl
  have hnoted : (rows.any fun row => row.file == id) =
      !(rows.filter fun row => row.file == id).isEmpty := by
    rw [Bool.eq_iff_iff]
    simp
  constructor
  · intro other hne
    ext1
    case favorites =>
      rw [dossier, dossier, hrows]
      simp only [Option.getD_some]
      split
      · rw [filter_file_map hfile]
        refine (List.map_congr_left fun row hrow => if_neg ?_).trans (List.map_id' _)
        rw [beq_iff_eq.mp (List.mem_filter.mp hrow).2]
        simpa using hne
      · exact filter_file_append hne (by simp)
    all_goals rfl
  · ext1
    case favorites =>
      rw [dossier, dossier, hrows]
      simp only [Option.getD_some, hnoted, notedFavorites]
      cases hnone : (rows.filter fun row => row.file == id).isEmpty with
      | true =>
        rw [List.isEmpty_iff] at hnone
        simp [hnone]
      | false =>
        simp only [Bool.not_false, if_true, Bool.false_eq_true, if_false]
        rw [filter_file_map hfile]
        refine List.map_congr_left fun row hrow => if_pos ?_
        exact (List.mem_filter.mp hrow).2
    all_goals rfl

/-- An upsert is nothing to others. Of its own file it merges the hashes and notes the favorite. -/
theorem upsert_dossier {hashes : Option (List (String × String))} {favorite : Option FavoriteInput}
    (h : tables.upsert now path seen extracted hashes favorite = .ok (tables', id)) :
    (∀ other ≠ id, tables'.dossier other = tables.dossier other) ∧
      ∃ stored time, Stored tables now path seen extracted stored id time ∧
        tables'.dossier id =
          { stored.dossier id with
            hashes := mergedHashes id hashes (tables.dossier id).hashes
            favorites := notedFavorites id time favorite (tables.dossier id).favorites } := by
  obtain ⟨stored, time, marked, hstored, hhashes, hfavorite⟩ := upsert_ok h
  obtain ⟨hsameHashes, hsameFavorites⟩ := hstored.hashes_eq
  have hown : (stored.dossier id).hashes = (tables.dossier id).hashes ∧
      (stored.dossier id).favorites = (tables.dossier id).favorites := by
    simp only [dossier, hsameHashes, hsameFavorites, and_self]
  have hmarked : (∀ other ≠ id, marked.dossier other = stored.dossier other) ∧
      marked.dossier id =
        { stored.dossier id with hashes := mergedHashes id hashes (stored.dossier id).hashes } := by
    rcases hhashes with ⟨rfl, rfl⟩ | ⟨given, rfl, hput⟩
    · exact ⟨fun _ _ => rfl, rfl⟩
    · exact putHashes_dossier hput
  have hnoted : (∀ other ≠ id, tables'.dossier other = marked.dossier other) ∧
      tables'.dossier id =
        { marked.dossier id with
          favorites := notedFavorites id time favorite (marked.dossier id).favorites } := by
    rcases hfavorite with ⟨rfl, rfl⟩ | ⟨input, rfl, hset⟩
    · exact ⟨fun _ _ => rfl, rfl⟩
    · exact setFavorite_dossier hset
  refine ⟨fun other hne => ?_, stored, time, hstored, ?_⟩
  · rw [hnoted.1 other hne, hmarked.1 other hne, hstored.dossier_of_ne hne]
  · rw [hnoted.2, hmarked.2, hown.1, hown.2]

/-- A toggle is nothing to others, and of its own file it changes the favorite. -/
theorem toggleFavorite_dossier {input : FavoriteInput} {on : Bool}
    (h : tables.toggleFavorite id input now = .ok (tables', on)) :
    (∀ other ≠ id, tables'.dossier other = tables.dossier other) ∧
      tables'.dossier id =
        { tables.dossier id with favorites := (tables'.dossier id).favorites } := by
  rcases toggleFavorite_ok h with rfl | ⟨-, ⟨rows, hrows, rfl⟩ | hset⟩
  · exact ⟨fun _ _ => rfl, rfl⟩
  · refine ⟨fun other hne => ?_, rfl⟩
    ext1
    case favorites =>
      rw [dossier, dossier, hrows]
      refine filter_file_filter fun row _ hrow => ?_
      simpa [hrow] using hne
    all_goals rfl
  · obtain ⟨hothers, hown⟩ := setFavorite_dossier hset
    exact ⟨hothers, by rw [hown]⟩

end Storing

/-! ### Reading -/

theorem fieldsOf_eq (tables : Tables) (id : FileId) :
    tables.fieldsOf id =
      keyed ((tables.dossier id).fields.map fun row => (row.field, row.value)) := by
  simp only [fieldsOf, fieldsAmong, dossier, Bool.and_true]

theorem wholeHistory_eq (tables : Tables) (id : FileId) :
    tables.wholeHistory id = sortBy LedgerEntry.precedes (tables.dossier id).entries := rfl

theorem hashesOf_eq (tables : Tables) (id : FileId) :
    tables.hashesOf id =
      keyed ((tables.dossier id).hashes.map fun row => (row.algorithm, row.hash)) := rfl

theorem isFavorite_eq (tables : Tables) (id : FileId) :
    tables.isFavorite id = !(tables.dossier id).favorites.isEmpty := by
  rw [Bool.eq_iff_iff]
  simp [isFavorite, dossier]

theorem mem_allFavorites_iff {favorite : Favorite} (hid : favorite.file.id = id) :
    favorite ∈ tables.allFavorites ↔
      ∃ row ∈ (tables.dossier id).favorites, ∃ file, (tables.dossier id).record = some file ∧
        ⟨file, row.added, row.notes, tagsOf row.tags⟩ = favorite := by
  have hmem : ∀ row, row ∈ sortBy FavoriteRow.precedes (tables.favorites.getD []) ↔
      row ∈ tables.favorites.getD [] := fun row => (sortBy_perm _ _).mem_iff
  simp only [allFavorites, List.mem_filterMap, hmem, Option.map_eq_some_iff, dossier, List.mem_filter,
    beq_iff_eq]
  constructor
  · rintro ⟨row, hrow, file, hfile, rfl⟩
    have hfound : file.id = row.file := by simpa using List.find?_some hfile
    have hrowId : row.file = id := hfound.symm.trans hid
    exact ⟨row, ⟨hrow, hrowId⟩, file, hrowId ▸ hfile, rfl⟩
  · rintro ⟨row, ⟨hrow, hrowId⟩, file, hfile, rfl⟩
    exact ⟨row, hrow, file, hrowId ▸ hfile, rfl⟩

end Tables

namespace Store

/-- All that can be read of a file is the same in both catalogs. -/
structure Unaffected (store store' : Store) (id : FileId) : Prop where
  dossier : store'.tables.dossier id = store.tables.dossier id
  record : store'.file? id = store.file? id
  fields : store'.fields id = store.fields id
  history : ∀ limit offset, store'.history id limit offset = store.history id limit offset
  hashes : store'.hashes id = store.hashes id
  isFavorite : store'.isFavorite id = store.isFavorite id
  /-- The list of favorites has it with the same time, notes and tags. -/
  listed : ∀ favorite : Favorite, favorite.file.id = id →
    (favorite ∈ store'.tables.allFavorites ↔ favorite ∈ store.tables.allFavorites)

theorem Unaffected.of_dossier {store store' : Store} {id : FileId}
    (h : store'.tables.dossier id = store.tables.dossier id) : store.Unaffected store' id where
  dossier := h
  record := congrArg Dossier.record h
  fields := by
    show store'.tables.fieldsOf id = store.tables.fieldsOf id
    rw [Tables.fieldsOf_eq, h, ← Tables.fieldsOf_eq]
  history limit offset := by
    show window limit offset (store'.tables.wholeHistory id) = _
    rw [Tables.wholeHistory_eq, h, ← Tables.wholeHistory_eq]
    rfl
  hashes := by
    show store'.tables.hashesOf id = store.tables.hashesOf id
    rw [Tables.hashesOf_eq, h, ← Tables.hashesOf_eq]
  isFavorite := by
    show store'.tables.isFavorite id = store.tables.isFavorite id
    rw [Tables.isFavorite_eq, h, ← Tables.isFavorite_eq]
  listed favorite hid := by rw [Tables.mem_allFavorites_iff hid, h, ← Tables.mem_allFavorites_iff hid]

end Store

end Catalog
