import Catalog.Proofs.Store.Upsert
import Catalog.Store.Foreign

/-! What holds of the tables at all times: ids and paths belong to one file each, rows belong to files
that are there, no table has two rows in one place, and the next ids are larger than all that were
given. Every change of the tables keeps this. -/

namespace Catalog.Tables

open Catalog.Order

/-- A file with this id is stored. -/
def Holds (tables : Tables) (id : FileId) : Prop := id ∈ tables.files.map (·.id)

/-- Keys, owners and counters of the tables are in order. -/
structure Consistent (tables : Tables) : Prop where
  ids : (tables.files.map (·.id)).Nodup
  paths : (tables.files.map (·.path)).Nodup
  below : ∀ file ∈ tables.files, file.id < tables.nextFile
  fieldsOwned : ∀ row ∈ tables.fields.getD [], tables.Holds row.file
  fieldsApart : (tables.fields.getD []).Pairwise FieldRow.Apart
  entriesOwned : ∀ entry ∈ tables.ledger.getD [], tables.Holds entry.file
  numbered : Numbered (tables.ledger.getD []) tables.nextEntry
  hashesOwned : ∀ row ∈ tables.hashes.getD [], tables.Holds row.file
  hashesApart : ((tables.hashes.getD []).map fun row => (row.file, row.algorithm)).Nodup
  favoritesOwned : ∀ row ∈ tables.favorites.getD [], tables.Holds row.file
  favoritesApart : ((tables.favorites.getD []).map (·.file)).Nodup

theorem consistent_empty : Consistent {} := by
  constructor <;> simp [Numbered.nil]

/-! ### Files -/

theorem mem_of_fileAt? {tables : Tables} {path : String} {file : FileRecord}
    (h : tables.fileAt? path = some file) : file ∈ tables.files ∧ file.path = path :=
  ⟨List.mem_of_find?_eq_some h, by simpa using List.find?_some h⟩

theorem holds_of_fileAt? {tables : Tables} {path : String} {file : FileRecord}
    (h : tables.fileAt? path = some file) : tables.Holds file.id :=
  List.mem_map.mpr ⟨file, (mem_of_fileAt? h).1, rfl⟩

theorem fileAt?_eq_none_iff {tables : Tables} {path : String} :
    tables.fileAt? path = none ↔ path ∉ tables.files.map (·.path) := by
  simp [fileAt?, List.mem_map]

theorem Consistent.fileAt?_eq_some_iff {tables : Tables} (h : tables.Consistent) {path : String}
    {file : FileRecord} :
    tables.fileAt? path = some file ↔ file ∈ tables.files ∧ file.path = path := by
  refine ⟨mem_of_fileAt?, ?_⟩
  rintro ⟨hfile, rfl⟩
  cases hfound : tables.fileAt? file.path with
  | none => simpa using List.find?_eq_none.mp hfound file hfile
  | some other =>
    obtain ⟨hmem, hpath⟩ := mem_of_fileAt? hfound
    rw [List.inj_on_of_nodup_map h.paths hmem hfile hpath]

theorem Consistent.file?_eq_some_iff {tables : Tables} (h : tables.Consistent) {id : FileId}
    {file : FileRecord} : tables.file? id = some file ↔ file ∈ tables.files ∧ file.id = id := by
  refine ⟨fun hfile => ⟨List.mem_of_find?_eq_some hfile, by simpa using List.find?_some hfile⟩, ?_⟩
  rintro ⟨hfile, rfl⟩
  cases hfound : tables.file? file.id with
  | none => simpa using List.find?_eq_none.mp hfound file hfile
  | some other =>
    have hid : other.id = file.id := by simpa using List.find?_some hfound
    rw [List.inj_on_of_nodup_map h.ids (List.mem_of_find?_eq_some hfound) hfile hid]

/-- A file is found by its path exactly if it is found by its id. -/
theorem Consistent.fileAt?_iff_file? {tables : Tables} (h : tables.Consistent) {path : String}
    {file : FileRecord} :
    tables.fileAt? path = some file ↔ file.path = path ∧ tables.file? file.id = some file := by
  rw [h.fileAt?_eq_some_iff, h.file?_eq_some_iff, and_comm, eq_self, and_true]

theorem Consistent.not_holds_nextFile {tables : Tables} (h : tables.Consistent) :
    ¬tables.Holds tables.nextFile := by
  intro hheld
  obtain ⟨file, hfile, hid⟩ := List.mem_map.mp hheld
  exact Int.lt_irrefl _ (hid ▸ h.below file hfile)

theorem exists_of_mem_updateFile {tables : Tables} {id : FileId} {change : FileRecord → FileRecord}
    {file : FileRecord} (h : file ∈ (tables.updateFile id change).files) :
    ∃ old ∈ tables.files, file = old ∨ file = change old := by
  obtain ⟨old, hold, rfl⟩ := List.mem_map.mp h
  refine ⟨old, hold, ?_⟩
  split
  · exact .inr rfl
  · exact .inl rfl

/-- A change of records does not show where it is not looked at. -/
theorem map_updateFile {β : Type} (tables : Tables) (id : FileId)
    {change : FileRecord → FileRecord} {view : FileRecord → β}
    (h : ∀ file, view (change file) = view file) :
    (tables.updateFile id change).files.map view = tables.files.map view := by
  rw [updateFile, List.map_map]
  refine List.map_congr_left fun file _ => ?_
  by_cases hid : file.id = id <;> simp [hid, h]

theorem holds_updateFile {tables : Tables} {other : FileId} (id : FileId)
    (change : FileRecord → FileRecord) (h : ∀ file, (change file).id = file.id) :
    (tables.updateFile id change).Holds other ↔ tables.Holds other := by
  rw [Holds, map_updateFile tables id h, Holds]

/-- Other files may be stored if none that was there is missing. -/
theorem Consistent.withFiles {tables : Tables} (h : tables.Consistent) {files : List FileRecord}
    {next : FileId} (hheld : ∀ id, tables.Holds id → id ∈ files.map (·.id))
    (hids : (files.map (·.id)).Nodup) (hpaths : (files.map (·.path)).Nodup)
    (hbelow : ∀ file ∈ files, file.id < next) :
    Consistent { tables with files := files, nextFile := next } :=
  { h with
    ids := hids
    paths := hpaths
    below := hbelow
    fieldsOwned := fun row hrow => hheld _ (h.fieldsOwned row hrow)
    entriesOwned := fun entry hentry => hheld _ (h.entriesOwned entry hentry)
    hashesOwned := fun row hrow => hheld _ (h.hashesOwned row hrow)
    favoritesOwned := fun row hrow => hheld _ (h.favoritesOwned row hrow) }

theorem Consistent.updateFile {tables : Tables} (h : tables.Consistent) (id : FileId)
    {change : FileRecord → FileRecord} (hid : ∀ file, (change file).id = file.id)
    (hpath : ∀ file, (change file).path = file.path) : (tables.updateFile id change).Consistent := by
  have hids := map_updateFile tables id hid
  refine h.withFiles (fun other hheld => ?_) ?_ ?_ fun file hfile => ?_
  · exact (holds_updateFile id change hid).mpr hheld
  · exact hids ▸ h.ids
  · exact map_updateFile tables id hpath ▸ h.paths
  · obtain ⟨old, hold, heq⟩ := List.mem_map.mp (hids ▸ List.mem_map.mpr ⟨file, hfile, rfl⟩)
    exact heq ▸ h.below old hold

theorem Consistent.insertFile {tables : Tables} (h : tables.Consistent) (file : FileRecord)
    (hid : file.id = tables.nextFile) (hpath : tables.fileAt? file.path = none) :
    Consistent
      { tables with files := tables.files ++ [file], nextFile := tables.nextFile + 1 } := by
  refine h.withFiles (fun other hheld => ?_) ?_ ?_ fun other hother => ?_
  · rw [List.map_append]
    exact List.mem_append_left _ hheld
  · rw [List.map_append, List.nodup_append]
    refine ⟨h.ids, by simp, ?_⟩
    rintro id hheld _ hnew rfl
    obtain rfl : id = file.id := by simpa using hnew
    exact h.not_holds_nextFile (hid ▸ hheld)
  · rw [List.map_append, List.nodup_append]
    refine ⟨h.paths, by simp, ?_⟩
    rintro path hheld _ hnew rfl
    obtain rfl : path = file.path := by simpa using hnew
    exact fileAt?_eq_none_iff.mp hpath hheld
  · rcases List.mem_append.mp hother with hold | hnew
    · exact Int.lt_trans (h.below other hold) (Int.lt_succ _)
    · rw [List.mem_singleton.mp hnew, hid]
      exact Int.lt_succ _

theorem getD_map_filter {α : Type} (rows : Option (List α)) (keep : α → Bool) :
    (rows.map (·.filter keep)).getD [] = (rows.getD []).filter keep := by
  cases rows <;> rfl

/-- Of rows that belong to stored files, those of other files than the erased one still do. -/
theorem holds_eraseFile {tables : Tables} {α : Type} {rows : List α} {file : α → FileId}
    (h : ∀ row ∈ rows, tables.Holds (file row)) (id : FileId) :
    ∀ row ∈ rows.filter fun row => file row != id, (tables.eraseFile id).Holds (file row) := by
  intro row hrow
  obtain ⟨hrow, hne⟩ := List.mem_filter.mp hrow
  obtain ⟨record, hrecord, heq⟩ := List.mem_map.mp (h row hrow)
  exact List.mem_map.mpr ⟨record, List.mem_filter.mpr ⟨hrecord, heq ▸ hne⟩, heq⟩

theorem Consistent.eraseFile {tables : Tables} (h : tables.Consistent) (id : FileId) :
    (tables.eraseFile id).Consistent := by
  have hsub : (tables.eraseFile id).files.Sublist tables.files := List.filter_sublist
  refine
    { ids := h.ids.sublist (hsub.map _), paths := h.paths.sublist (hsub.map _)
      below := fun file hfile => h.below file (hsub.mem hfile), fieldsOwned := ?_
      fieldsApart := ?_, entriesOwned := ?_, numbered := ?_, hashesOwned := ?_
      hashesApart := ?_, favoritesOwned := ?_, favoritesApart := ?_ } <;>
    simp only [Tables.eraseFile, getD_map_filter]
  · exact holds_eraseFile h.fieldsOwned id
  · exact h.fieldsApart.filter _
  · exact holds_eraseFile h.entriesOwned id
  · exact h.numbered.filter _
  · exact holds_eraseFile h.hashesOwned id
  · exact h.hashesApart.sublist (List.filter_sublist.map _)
  · exact holds_eraseFile h.favoritesOwned id
  · exact h.favoritesApart.sublist (List.filter_sublist.map _)

/-! ### Rows -/

theorem Consistent.withFields {tables : Tables} (h : tables.Consistent)
    (rows : Option (List FieldRow)) (howned : ∀ row ∈ rows.getD [], tables.Holds row.file)
    (hapart : (rows.getD []).Pairwise FieldRow.Apart) : Consistent { tables with fields := rows } :=
  { h with fieldsOwned := howned, fieldsApart := hapart }

theorem Consistent.withLedger {tables : Tables} (h : tables.Consistent)
    {entries : Option (List LedgerEntry)} {next : Nat} {closed : Bool}
    (howned : ∀ entry ∈ entries.getD [], tables.Holds entry.file)
    (hnumbered : Numbered (entries.getD []) next) :
    Consistent { tables with ledger := entries, nextEntry := next, ledgerClosed := closed } :=
  { h with entriesOwned := howned, numbered := hnumbered }

theorem Consistent.appendEntries {tables : Tables} (h : tables.Consistent)
    {entries new : List LedgerEntry} {next : Nat} (hentries : tables.ledger = some entries)
    (howned : ∀ entry ∈ new, tables.Holds entry.file) (hle : tables.nextEntry ≤ next)
    (hascending : new.Pairwise fun a b => a.id < b.id)
    (hnew : ∀ entry ∈ new, tables.nextEntry ≤ entry.id ∧ entry.id < next) :
    Consistent { tables with ledger := some (entries ++ new), nextEntry := next } := by
  have hold := h.entriesOwned
  have hnumbered := h.numbered
  rw [hentries, Option.getD_some] at hold hnumbered
  refine h.withLedger (fun entry hentry => ?_) (hnumbered.append hle hascending hnew)
  rcases List.mem_append.mp hentry with hentry | hentry
  · exact hold entry hentry
  · exact howned entry hentry

theorem Consistent.withHashes {tables : Tables} (h : tables.Consistent)
    {rows : Option (List HashRow)} (howned : ∀ row ∈ rows.getD [], tables.Holds row.file)
    (hapart : ((rows.getD []).map fun row => (row.file, row.algorithm)).Nodup) :
    Consistent { tables with hashes := rows } :=
  { h with hashesOwned := howned, hashesApart := hapart }

theorem Consistent.withFavorites {tables : Tables} (h : tables.Consistent)
    {rows : Option (List FavoriteRow)} (howned : ∀ row ∈ rows.getD [], tables.Holds row.file)
    (hapart : ((rows.getD []).map (·.file)).Nodup) : Consistent { tables with favorites := rows } :=
  { h with favoritesOwned := howned, favoritesApart := hapart }

theorem Consistent.favorites_some {tables : Tables} (h : tables.Consistent)
    {rows : List FavoriteRow} (hrows : tables.favorites = some rows) :
    (∀ row ∈ rows, tables.Holds row.file) ∧ (rows.map (·.file)).Nodup := by
  have howned := h.favoritesOwned
  have hapart := h.favoritesApart
  rw [hrows, Option.getD_some] at howned hapart
  exact ⟨howned, hapart⟩

theorem Consistent.mapFavorites {tables : Tables} (h : tables.Consistent) {rows : List FavoriteRow}
    (hrows : tables.favorites = some rows) {change : FavoriteRow → FavoriteRow}
    (hfile : ∀ row, (change row).file = row.file) :
    Consistent { tables with favorites := some (rows.map change) } := by
  obtain ⟨howned, hapart⟩ := h.favorites_some hrows
  refine h.withFavorites (fun row hrow => ?_) ?_
  · obtain ⟨old, hold, rfl⟩ := List.mem_map.mp hrow
    rw [hfile]
    exact howned old hold
  · have hfiles : (rows.map change).map (·.file) = rows.map (·.file) := by
      rw [List.map_map]
      exact List.map_congr_left fun row _ => hfile row
    rw [Option.getD_some, hfiles]
    exact hapart

theorem Consistent.complete {tables : Tables} (h : tables.Consistent) :
    tables.complete.Consistent :=
  { h with }

/-! ### Storing -/

/-- Storing a file keeps the tables in order, and the file is there then. -/
theorem Stored.consistent {tables tables' : Tables} {now time : Timestamp} {path : String}
    {seen : Observation} {extracted : Extracted} {id : FileId}
    (hstored : Stored tables now path seen extracted tables' id time) (h : tables.Consistent) :
    tables'.Consistent ∧ tables'.Holds id := by
  cases hstored with
  | @inserted rows hnew hrows hfits =>
    have hapart := h.fieldsApart
    have howned := h.fieldsOwned
    rw [hrows, Option.getD_some] at hapart howned
    have hinsert := h.insertFile ⟨tables.nextFile, path, seen.hash, seen.size, seen.modified,
      seen.type, now, now⟩ rfl hnew
    have hholds : Holds { tables with
        files := tables.files ++
          [⟨tables.nextFile, path, seen.hash, seen.size, seen.modified, seen.type, now, now⟩]
        nextFile := tables.nextFile + 1 } tables.nextFile := by
      rw [Holds, List.map_append]
      exact List.mem_append_right _ List.mem_cons_self
    refine ⟨hinsert.withFields (some (rows ++ fieldRows tables.nextFile extracted)) ?_
      (hfits hapart), hholds⟩
    intro row hrow
    rcases List.mem_append.mp hrow with hold | hrow
    · exact hinsert.fieldsOwned row (by rwa [hrows])
    · rw [file_of_mem_fieldRows hrow]
      exact hholds
  | @replaced file rows entries changes time hfile hrows hentries htime hchanges hother hfits =>
    have hheld := holds_of_fileAt? hfile
    have hapart := h.fieldsApart
    have howned := h.fieldsOwned
    rw [hrows, Option.getD_some] at hapart howned
    have hfields := h.withFields
      (some ((rows.filter fun row : FieldRow => row.file != file.id) ++
        fieldRows file.id extracted))
      (fun row hrow => by
        rcases List.mem_append.mp hrow with hold | hnew
        · exact howned row (List.mem_filter.mp hold).1
        · rw [file_of_mem_fieldRows hnew]
          exact hheld)
      (hfits (hapart.filter _))
    have hledger := hfields.appendEntries hentries
      (fun entry hentry => (mem_entriesFor hentry).1 ▸ hheld) (Nat.le_add_right _ _)
      (pairwise_id_entriesFor file.id time tables.nextEntry changes)
      fun entry hentry => (mem_entriesFor hentry).2.2
    exact ⟨hledger.updateFile file.id (fun _ => rfl) fun _ => rfl,
      (holds_updateFile _ _ (by intro _; rfl)).mpr hheld⟩
  | @kept file rows time hfile hrows htime hhash hexplicit hderived =>
    exact ⟨h.updateFile file.id (fun _ => rfl) fun _ => rfl,
      (holds_updateFile _ _ (by intro _; rfl)).mpr (holds_of_fileAt? hfile)⟩

theorem Consistent.putHashes {tables tables' : Tables} (h : tables.Consistent) {id : FileId}
    (hid : tables.Holds id) {hashes : List (String × String)}
    (hput : tables.putHashes id hashes = .ok tables') : tables'.Consistent := by
  obtain ⟨rows, hrows, rfl⟩ := putHashes_ok hput
  have howned := h.hashesOwned
  have hapart := h.hashesApart
  rw [hrows, Option.getD_some] at howned hapart
  refine h.withHashes ?_ ?_ <;> rw [Option.getD_some]
  · intro row hrow
    rcases List.mem_append.mp hrow with hold | hnew
    · exact howned row (List.mem_filter.mp hold).1
    · obtain ⟨e, -, rfl⟩ := List.mem_map.mp hnew
      exact hid
  · rw [List.map_append]
    refine List.nodup_append.mpr ⟨hapart.sublist (List.filter_sublist.map _), ?_, ?_⟩
    · have hkeys := (ascending_keyed hashes).nodup.map (f := fun algorithm => (id, algorithm))
        fun _ _ heq => (Prod.mk.inj heq).2
      simpa [Function.comp_def] using hkeys
    · rintro _ hold _ hnew rfl
      obtain ⟨row, hrow, heq⟩ := List.mem_map.mp hold
      obtain ⟨_, hadded, rfl⟩ := List.mem_map.mp hnew
      obtain ⟨⟨algorithm, hash⟩, he, rfl⟩ := List.mem_map.mp hadded
      obtain ⟨rfl, rfl⟩ := Prod.mk.inj heq
      have hgiven := mem_map_fst_keyed.mp (List.mem_map.mpr ⟨_, he, rfl⟩)
      obtain ⟨given, hgiven, hsame⟩ := List.mem_map.mp hgiven
      have hkeep := (List.mem_filter.mp hrow).2
      simp only [beq_self_eq_true, Bool.true_and, Bool.not_eq_true', List.any_eq_false,
        beq_iff_eq] at hkeep
      exact hkeep given hgiven hsame

theorem Consistent.setFavorite {tables tables' : Tables} (h : tables.Consistent) {id : FileId}
    (hid : tables.Holds id) {input : FavoriteInput} {now : Timestamp}
    (hset : tables.setFavorite id input now = .ok tables') : tables'.Consistent := by
  obtain ⟨rows, hrows, rfl⟩ := setFavorite_ok hset
  split
  · refine h.mapFavorites hrows fun row => ?_
    split <;> rfl
  · rename_i hnone
    obtain ⟨howned, hapart⟩ := h.favorites_some hrows
    refine h.withFavorites (fun row hrow => ?_) ?_
    · rcases List.mem_append.mp hrow with hold | hnew
      · exact howned row hold
      · rw [List.mem_singleton.mp hnew]
        exact hid
    · rw [Option.getD_some, List.map_append]
      refine List.nodup_append.mpr ⟨hapart, List.pairwise_singleton _ _, ?_⟩
      rintro file hold _ hnew rfl
      obtain rfl : file = id := by simpa using hnew
      obtain ⟨row, hrow, hfile⟩ := List.mem_map.mp hold
      exact hnone (List.any_eq_true.mpr ⟨row, hrow, beq_iff_eq.mpr hfile⟩)

/-- An upsert keeps the tables in order, and the file is there then. -/
theorem Consistent.upsert {tables tables' : Tables} (h : tables.Consistent) {now : Timestamp}
    {path : String} {seen : Observation} {extracted : Extracted}
    {hashes : Option (List (String × String))} {favorite : Option FavoriteInput} {id : FileId}
    (hupsert : tables.upsert now path seen extracted hashes favorite = .ok (tables', id)) :
    tables'.Consistent ∧ tables'.Holds id := by
  obtain ⟨stored, time, marked, hstored, hhashes, hfavorite⟩ := upsert_ok hupsert
  obtain ⟨hstored, hid⟩ := hstored.consistent h
  have hmarked : marked.Consistent ∧ marked.Holds id := by
    rcases hhashes with ⟨-, rfl⟩ | ⟨given, -, hput⟩
    · exact ⟨hstored, hid⟩
    · refine ⟨hstored.putHashes hid hput, ?_⟩
      obtain ⟨rows, -, rfl⟩ := putHashes_ok hput
      exact hid
  rcases hfavorite with ⟨-, rfl⟩ | ⟨input, -, hset⟩
  · exact hmarked
  · refine ⟨hmarked.1.setFavorite hmarked.2 hset, ?_⟩
    obtain ⟨rows, -, rfl⟩ := setFavorite_ok hset
    exact hmarked.2

theorem file?_isNone_eq_false_iff {tables : Tables} {id : FileId} :
    (tables.file? id).isNone = false ↔ tables.Holds id := by
  simp [file?, Holds]

theorem toggleFavorite_unknown {tables : Tables} {id : FileId} (h : tables.file? id = none)
    (input : FavoriteInput) (now : Timestamp) :
    tables.toggleFavorite id input now = .ok (tables, false) := by
  rw [toggleFavorite, h]
  rfl

theorem toggleFavorite_ok {tables tables' : Tables} {id : FileId} {input : FavoriteInput}
    {now : Timestamp} {on : Bool}
    (h : tables.toggleFavorite id input now = .ok (tables', on)) :
    tables' = tables ∨
      tables.Holds id ∧
        ((∃ rows, tables.favorites = some rows ∧
            tables' = { tables with favorites := some (rows.filter fun row => row.file != id) }) ∨
          tables.setFavorite id input now = .ok tables') := by
  rw [toggleFavorite] at h
  split at h
  · cases h
    exact .inl rfl
  · rename_i hheld
    rw [Bool.not_eq_true, file?_isNone_eq_false_iff] at hheld
    refine .inr ⟨hheld, ?_⟩
    rw [bind_eq_ok_iff] at h
    obtain ⟨rows, hneed, h⟩ := h
    split at h
    · cases h
      exact .inl ⟨rows, need_eq_ok_iff.mp hneed, rfl⟩
    · rw [bind_eq_ok_iff] at h
      obtain ⟨favored, hset, h⟩ := h
      cases h
      exact .inr hset

/-- Turning a file into a favorite or back touches favorites only. -/
theorem toggleFavorite_eq {tables tables' : Tables} {id : FileId} {input : FavoriteInput}
    {now : Timestamp} {on : Bool} (h : tables.toggleFavorite id input now = .ok (tables', on)) :
    ∃ rows, tables' = { tables with favorites := rows } := by
  rcases toggleFavorite_ok h with rfl | ⟨-, ⟨rows, -, rfl⟩ | hset⟩
  · exact ⟨_, rfl⟩
  · exact ⟨_, rfl⟩
  · obtain ⟨rows, -, rfl⟩ := setFavorite_ok hset
    exact ⟨_, rfl⟩

theorem Consistent.toggleFavorite {tables tables' : Tables} (h : tables.Consistent) {id : FileId}
    {input : FavoriteInput} {now : Timestamp} {on : Bool}
    (htoggle : tables.toggleFavorite id input now = .ok (tables', on)) : tables'.Consistent := by
  rcases toggleFavorite_ok htoggle with rfl | ⟨hid, ⟨rows, hrows, rfl⟩ | hset⟩
  · exact h
  · obtain ⟨howned, hapart⟩ := h.favorites_some hrows
    exact h.withFavorites (fun row hrow => howned row (List.mem_filter.mp hrow).1)
      (hapart.sublist (List.filter_sublist.map _))
  · exact h.setFavorite hid hset

end Catalog.Tables
