import Catalog.Proofs.Store.Run

/-! What an upsert leaves behind: the fields that the document yields under the settings in force,
whatever was there before, and in the ledger the changes that lead to them. -/

namespace Catalog

open Catalog.Order

namespace Tables

variable {tables tables' : Tables} {now time : Timestamp} {path : String} {seen : Observation}
  {extracted : Extracted} {id : FileId}

/-- The entries that storing explicit fields for a path adds to the ledger: none for a new path, else
the changes of the file. -/
def recordedBy (tables : Tables) (time : Timestamp) (path : String) (explicit : FieldMap) :
    List LedgerEntry :=
  match tables.fileAt? path with
  | none => []
  | some file =>
    entriesFor file.id time tables.nextEntry
      (FieldMap.changes (tables.explicitOf file.id) explicit)

theorem recordedBy_of_fileAt? {file : FileRecord} (h : tables.fileAt? path = some file)
    (time : Timestamp) (explicit : FieldMap) :
    tables.recordedBy time path explicit =
      entriesFor file.id time tables.nextEntry
        (FieldMap.changes (tables.explicitOf file.id) explicit) := by
  rw [recordedBy, h]

theorem recordedBy_of_new (h : tables.fileAt? path = none) (time : Timestamp)
    (explicit : FieldMap) : tables.recordedBy time path explicit = [] := by
  rw [recordedBy, h]

namespace Stored

/-- The file stored for the path has the id. -/
theorem id_eq (h : Stored tables now path seen extracted tables' id time) :
    id = ((tables.fileAt? path).map (·.id)).getD tables.nextFile := by
  cases h with
  | inserted hnew => rw [hnew, Option.map_none, Option.getD_none]
  | replaced hfile => rw [hfile, Option.map_some, Option.getD_some]
  | kept hfile => rw [hfile, Option.map_some, Option.getD_some]

theorem id_eq_of_fileAt? (h : Stored tables now path seen extracted tables' id time)
    {file : FileRecord} (hfile : tables.fileAt? path = some file) : id = file.id := by
  rw [h.id_eq, hfile, Option.map_some, Option.getD_some]

theorem id_eq_of_new (h : Stored tables now path seen extracted tables' id time)
    (hnew : tables.fileAt? path = none) : id = tables.nextFile := by
  rw [h.id_eq, hnew, Option.map_none, Option.getD_none]

theorem time_eq_of_new (h : Stored tables now path seen extracted tables' id time)
    (hnew : tables.fileAt? path = none) : time = now := by
  cases h with
  | inserted => rfl
  | replaced hfile =>
    rw [hnew] at hfile
    cases hfile
  | kept hfile =>
    rw [hnew] at hfile
    cases hfile

theorem mem_recordedBy (h : Stored tables now path seen extracted tables' id time)
    {explicit : FieldMap} :
    ∀ entry ∈ tables.recordedBy time path explicit, entry.file = id ∧ entry.recorded = time := by
  intro entry hentry
  rw [recordedBy] at hentry
  split at hentry
  · cases hentry
  · rename_i file hfile
    obtain ⟨hid, hrecorded, -⟩ := mem_entriesFor hentry
    exact ⟨hid.trans (h.id_eq_of_fileAt? hfile).symm, hrecorded⟩

/-- Fields are stored as the document yields them. Where they are kept because nothing seems to have
changed, they are the same. -/
theorem fields_eq (h : Stored tables now path seen extracted tables' id time)
    (hconsistent : tables.Consistent) (hordered : extracted.Ordered) :
    tables'.explicitOf id = extracted.explicit ∧ tables'.derivedOf id = extracted.derived := by
  cases h with
  | @inserted rows hnew hrows hfits =>
    have hfree : ∀ row ∈ rows, row.file ≠ tables.nextFile := by
      intro row hrow heq
      refine hconsistent.not_holds_nextFile (heq ▸ hconsistent.fieldsOwned row ?_)
      rwa [hrows]
    exact fieldsAmong_append_fieldRows hfree hordered
  | @replaced file rows entries changes time hfile hrows hentries htime hchanges hother hfits =>
    refine fieldsAmong_append_fieldRows (fun row hrow => ?_) hordered
    simpa using (List.mem_filter.mp hrow).2
  | kept hfile hrows htime hhash hexplicit hderived =>
    -- Nothing was written, but the test for that is that there is nothing to change.
    exact ⟨(FieldMap.changes_eq_nil_iff (ascending_fieldsAmong _ _ _) hordered.explicit).mp hexplicit,
      hderived⟩

/-- Fields of other files stay. -/
theorem fieldsAmong_of_ne (h : Stored tables now path seen extracted tables' id time)
    {other : FileId} (hne : other ≠ id) (keep : FieldRow → Bool) :
    fieldsAmong (tables'.fields.getD []) other keep =
      fieldsAmong (tables.fields.getD []) other keep := by
  cases h with
  | inserted hnew hrows =>
    rw [hrows]
    exact fieldsAmong_append_fieldRows_of_ne hne _ _ _
  | replaced hfile hrows =>
    rw [hrows]
    exact (fieldsAmong_append_fieldRows_of_ne hne _ _ _).trans (fieldsAmong_filter_of_ne hne _ _)
  | kept => rfl

/-- The ledger grows by the changes of explicit fields. -/
theorem ledger_eq (h : Stored tables now path seen extracted tables' id time) :
    tables'.ledger.getD [] =
      tables.ledger.getD [] ++ tables.recordedBy time path extracted.explicit := by
  cases h with
  | inserted hnew => rw [recordedBy_of_new hnew, List.append_nil]
  | replaced hfile hrows hentries htime hchanges =>
    rw [recordedBy_of_fileAt? hfile, hentries, hchanges]
    rfl
  | kept hfile hrows htime hhash hexplicit =>
    rw [recordedBy_of_fileAt? hfile, hexplicit, entriesFor, List.append_nil]
    rfl

/-- The time of the file is no earlier than that of any entry it has. -/
theorem not_lt_recorded (h : Stored tables now path seen extracted tables' id time)
    (hconsistent : tables.Consistent) :
    ∀ entry ∈ tables.ledger.getD [], entry.file = id → ¬time < entry.recorded := by
  have hknown : ∀ {file : FileRecord}, tables.ledgerTime file.id now = .ok time →
      ∀ entry ∈ tables.ledger.getD [], entry.file = file.id → ¬time < entry.recorded := by
    intro file htime
    obtain ⟨entries, hentries, hle⟩ := ledgerTime_ok htime
    rwa [hentries]
  cases h with
  | inserted =>
    intro entry hentry heq
    exact absurd (heq ▸ hconsistent.entriesOwned entry hentry) hconsistent.not_holds_nextFile
  | replaced hfile hrows hentries htime => exact hknown htime
  | kept hfile hrows htime => exact hknown htime

/-- The history of the file is what it was, with the changes in front, the last one first. -/
theorem wholeHistory_eq (h : Stored tables now path seen extracted tables' id time)
    (hconsistent : tables.Consistent) :
    tables'.wholeHistory id =
      (tables.recordedBy time path extracted.explicit).reverse ++ tables.wholeHistory id := by
  have hnumbered := (h.consistent hconsistent).1.numbered
  rw [h.ledger_eq] at hnumbered
  exact wholeHistory_append h.ledger_eq hnumbered h.mem_recordedBy (h.not_lt_recorded hconsistent)

theorem wholeHistory_of_ne (h : Stored tables now path seen extracted tables' id time)
    {other : FileId} (hne : other ≠ id) : tables'.wholeHistory other = tables.wholeHistory other :=
  wholeHistory_append_of_ne h.ledger_eq (fun entry hentry => (h.mem_recordedBy entry hentry).1) hne

theorem exists_file (h : Stored tables now path seen extracted tables' id time) :
    ∃ file ∈ tables'.files, file.path = path ∧ file.id = id := by
  cases h with
  | inserted => exact ⟨_, List.mem_append_right _ List.mem_cons_self, rfl, rfl⟩
  | replaced hfile =>
    obtain ⟨hmem, hpath⟩ := mem_of_fileAt? hfile
    exact ⟨_, List.mem_map.mpr ⟨_, hmem, if_pos (beq_self_eq_true _)⟩, hpath, rfl⟩
  | kept hfile =>
    obtain ⟨hmem, hpath⟩ := mem_of_fileAt? hfile
    exact ⟨_, List.mem_map.mpr ⟨_, hmem, if_pos (beq_self_eq_true _)⟩, hpath, rfl⟩

/-- A file that is stored then was stored before, or it is the new one. -/
theorem mem_files (h : Stored tables now path seen extracted tables' id time) {file : FileRecord}
    (hfile : file ∈ tables'.files) :
    (∃ old ∈ tables.files, old.path = file.path ∧ old.id = file.id) ∨
      tables.fileAt? path = none ∧ file.path = path ∧ file.id = id := by
  cases h with
  | inserted hnew =>
    rcases List.mem_append.mp hfile with hold | hadded
    · exact .inl ⟨file, hold, rfl, rfl⟩
    · rw [List.mem_singleton.mp hadded]
      exact .inr ⟨hnew, rfl, rfl⟩
  | replaced =>
    obtain ⟨old, hold, rfl | rfl⟩ := exists_of_mem_updateFile hfile <;>
      exact .inl ⟨_, hold, rfl, rfl⟩
  | kept =>
    obtain ⟨old, hold, rfl | rfl⟩ := exists_of_mem_updateFile hfile <;>
      exact .inl ⟨_, hold, rfl, rfl⟩

theorem nextFile_le (h : Stored tables now path seen extracted tables' id time) :
    tables.nextFile ≤ tables'.nextFile := by
  cases h with
  | inserted => exact Int.le_of_lt (Int.lt_succ _)
  | replaced => exact Int.le_refl _
  | kept => exact Int.le_refl _

end Stored

end Tables

namespace Store

variable {store store' : Store} {files : Files.FileTree} {now : Timestamp} {path : Files.Path}
  {document : Json.Value} {hashes : Option (List (String × String))}
  {favorite : Option FavoriteInput} {id : FileId}

/-- After a successful upsert the file has exactly the fields of the document under the settings in
force, and the ledger has grown by the changes of its explicit fields, one entry for each field that
changed and all with one time; for a new path, or where only derived fields are others, by nothing. -/
theorem contents_after_upsert (hreachable : store.Reachable)
    (h : store.upsert files now path document hashes favorite = (store', .ok id)) :
    let explicit := flatten store.settings.flatten document
    (store'.fileAt? path).map (·.id) = some id ∧
      store'.tables.explicitOf id = explicit ∧
      store'.tables.derivedOf id = explicit.normalized store.settings.flatten.normalizedCategory ∧
      store'.fields id = (Extracted.ofDocument store.settings.flatten document).all ∧
      (store.fileAt? path = none → store'.tables.ledger.getD [] = store.tables.ledger.getD []) ∧
      ∀ file, store.fileAt? path = some file →
        id = file.id ∧
          (∃ time entries,
            entries = entriesFor id time store.tables.nextEntry
              (FieldMap.changes (store.tables.explicitOf id) explicit) ∧
            store'.tables.ledger.getD [] = store.tables.ledger.getD [] ++ entries ∧
            (∀ entry ∈ entries, entry.recorded = time) ∧ (entries.map (·.field)).Nodup ∧
            ∀ field, field ∈ entries.map (·.field) ↔
              get? field (store.tables.explicitOf id) ≠ get? field explicit) ∧
          (store.tables.explicitOf id = explicit →
            store'.tables.ledger.getD [] = store.tables.ledger.getD []) := by
  intro explicit
  obtain ⟨seen, stored, time, hashRows, favoriteRows, hstored, rfl⟩ := upsert_stored h
  obtain ⟨hconsistent, -⟩ := hstored.consistent hreachable.consistent
  obtain ⟨hexplicit, hderived⟩ := hstored.fields_eq hreachable.consistent
    (Extracted.ordered_ofDocument store.settings.flatten document)
  have hledger := hstored.ledger_eq
  refine ⟨?_, hexplicit, hderived, ?_, fun hnew => ?_, fun file hfile => ?_⟩
  · obtain ⟨file, hfile, hpath, rfl⟩ := hstored.exists_file
    exact congrArg (Option.map (·.id)) (hconsistent.fileAt?_eq_some_iff.mpr ⟨hfile, hpath⟩)
  · refine (Tables.fieldsOf_eq_all hconsistent.fieldsApart id).trans ?_
    rw [hexplicit, hderived]
  · rw [Tables.recordedBy_of_new hnew, List.append_nil] at hledger
    exact hledger
  · obtain rfl : id = file.id := hstored.id_eq_of_fileAt? hfile
    rw [Tables.recordedBy_of_fileAt? hfile] at hledger
    refine ⟨rfl, ⟨time, _, rfl, hledger, fun entry hentry => (mem_entriesFor hentry).2.1, ?_, ?_⟩, ?_⟩
    · rw [map_field_entriesFor]
      exact (FieldMap.ascending_changes _ _).nodup
    · intro field
      rw [map_field_entriesFor]
      exact FieldMap.mem_map_fst_changes_iff
    · intro hsame
      have hnone : FieldMap.changes (store.tables.explicitOf file.id)
          (Extracted.ofDocument store.settings.flatten document).explicit = [] :=
        (FieldMap.changes_eq_nil_iff (Tables.ascending_fieldsAmong _ _ _)
          (ascending_flatten _ _)).mpr hsame
      rw [hnone, entriesFor, List.append_nil] at hledger
      exact hledger

set_option maxRecDepth 2000 in
/-- A file stored again after its catalog was opened with another category for normalized fields. All
derived fields are others then, but one change is recorded. -/
theorem contents_after_upsert_when_reopened :
    let files : Files.FileTree := ⟨[(["a"], .file (.sound [1]) 0)]⟩
    let first : Json.Value := .object [("exif", .object [("make", .string "x")])]
    let second : Json.Value :=
      .object [("exif", .object [("make", .string "x"), ("iso", .string "9")])]
    let store := (ofTables {} {}).after
      [.single (.upsert files "5" "a" first none none),
       .single (.reopen { flatten := { normalizedCategory := "n" } })]
    let done := store.upsert files "3" "a" second none none
    (store.Reachable ∧ done = (done.1, .ok 1)) ∧
      (done.1.tables.explicitOf 1 = flatten store.settings.flatten second ∧
        done.1.fields 1 = (Extracted.ofDocument store.settings.flatten second).all) ∧
      done.1.fields 1 =
        [(⟨"exif", "iso"⟩, "9"), (⟨"exif", "make"⟩, "x"), (⟨"n", "camera_make"⟩, "x"),
         (⟨"n", "iso"⟩, "9")] ∧
      done.1.tables.ledger = some [⟨1, 1, "3", .added, ⟨"exif", "iso"⟩, none, some "9"⟩] := by
  intro files first second store done
  have hreachable : store.Reachable := (Reachable.opened {}).after _
  have hok : done.2 = .ok 1 := by decide +kernel
  have hdone : done = (done.1, .ok 1) := by rw [← hok]
  obtain ⟨-, hexplicit, -, hfields, -, -⟩ := contents_after_upsert hreachable hdone
  exact ⟨⟨hreachable, hdone⟩, ⟨hexplicit, hfields⟩, by decide +kernel⟩

end Store

end Catalog
