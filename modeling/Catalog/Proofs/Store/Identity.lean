import Catalog.Proofs.Store.Dossier
import Catalog.Proofs.Store.Replay

/-! The identity of files. Paths and ids belong together one to one, every row belongs to a file, and an
id is never handed out for two files: a path that was deleted and is stored again is a new file, of which
nothing is known but what is stored with it. -/

namespace Catalog

open Catalog.Files Catalog.Order

/-- The ids that a step hands out: that of the file if it is a successful upsert. -/
def Step.issued (store : Store) : Step → List FileId
  | upsert files now path document hashes favorite =>
    match (store.upsert files now path document hashes favorite).2 with
    | .ok id => [id]
    | .error _ => []
  | _ => []

namespace Store

/-- The ids that steps hand out, one after the other. -/
def issuedBy (store : Store) : List Step → List FileId
  | [] => []
  | step :: rest => step.issued store ++ (step.run store).issuedBy rest

/-- The catalog is one that a new one can become, and these ids were handed out on the way. -/
inductive Issued : Store → List FileId → Prop
  | opened (settings : Settings) : Issued (ofTables settings {}) []
  | operation {store : Store} {ids : List FileId} (operation : Operation) :
    Issued store ids → Issued (operation.run store) (ids ++ store.issuedBy operation.steps)
  | intrusion {store : Store} {ids : List FileId} (intrusion : Intrusion) :
    Issued store ids → Issued (intrusion.run store) ids

theorem Reachable.exists_issued {store : Store} (h : store.Reachable) : ∃ ids, store.Issued ids := by
  induction h with
  | opened settings => exact ⟨[], .opened settings⟩
  | operation operation _ ih =>
    obtain ⟨ids, hids⟩ := ih
    exact ⟨_, hids.operation operation⟩
  | intrusion intrusion _ ih =>
    obtain ⟨ids, hids⟩ := ih
    exact ⟨ids, hids.intrusion intrusion⟩

theorem Issued.reachable {store : Store} {ids : List FileId} (h : store.Issued ids) :
    store.Reachable := by
  induction h with
  | opened settings => exact .opened settings
  | operation operation _ ih => exact ih.operation operation
  | intrusion intrusion _ ih => exact ih.intrusion intrusion

theorem issuedBy_append (store : Store) (first rest : List Step) :
    store.issuedBy (first ++ rest) =
      store.issuedBy first ++ (store.afterSteps first).issuedBy rest := by
  induction first generalizing store with
  | nil => rfl
  | cons step first ih =>
    rw [List.cons_append, issuedBy, ih, issuedBy, List.append_assoc, afterSteps_cons]

theorem Issued.after {store : Store} {ids : List FileId} (h : store.Issued ids)
    (operations : List Operation) :
    (store.after operations).Issued
      (ids ++ store.issuedBy (operations.flatMap Operation.steps)) := by
  induction operations generalizing store ids with
  | nil =>
    rw [List.flatMap_nil, issuedBy, List.append_nil]
    exact h
  | cons operation rest ih =>
    have hrest := ih (h.operation operation)
    rw [List.append_assoc, operation.run_eq_afterSteps, ← issuedBy_append] at hrest
    rw [after_eq_afterSteps] at hrest ⊢
    rw [List.flatMap_cons, afterSteps_append]
    exact hrest

/-! ### Counting -/

/-- The ids are behind the counter, and every file that is stored has one of them. -/
structure Counted (store : Store) (ids : List FileId) : Prop where
  below : ∀ id ∈ ids, id < store.tables.nextFile
  stored : ∀ file ∈ store.tables.files, file.id ∈ ids

theorem issued_upsert {store : Store} {files : FileTree} {now : Timestamp} {path : Path}
    {document : Json.Value} {hashes : Option (List (String × String))}
    {favorite : Option FavoriteInput} {id : FileId}
    (h : (store.upsert files now path document hashes favorite).2 = .ok id) :
    (Step.upsert files now path document hashes favorite).issued store = [id] := by
  rw [Step.issued, h]

theorem nextFile_le_run (store : Store) (step : Step) :
    store.tables.nextFile ≤ (step.run store).tables.nextFile := by
  have heffect := effect_run store step
  generalize step.run store = store' at heffect ⊢
  cases heffect with
  | stored hok hstored => exact hstored.nextFile_le
  | _ => exact Int.le_refl _

theorem holds_of_mem_issued {store : Store} {step : Step} {id : FileId}
    (hconsistent : store.tables.Consistent) (h : id ∈ step.issued store) :
    (step.run store).tables.Holds id := by
  cases step with
  | upsert files now path document hashes favorite =>
    rw [Step.issued] at h
    rw [Step.run]
    cases hresult : store.upsert files now path document hashes favorite with
    | mk next result =>
      rw [hresult] at h
      cases result with
      | error cause => cases h
      | ok stored =>
        rw [List.mem_singleton.mp h]
        obtain ⟨seen, -, hok, -⟩ := upsert_ok hresult
        exact (hconsistent.upsert hok).2
  | delete path => cases h
  | toggleFavorite now subject notes tags => cases h
  | reopen settings => cases h

theorem Counted.step {store : Store} {ids : List FileId} (h : store.Counted ids)
    (hconsistent : store.tables.Consistent) (step : Step) :
    (step.run store).Counted (ids ++ step.issued store) where
  below id hid := by
    rcases List.mem_append.mp hid with hid | hid
    · exact Int.lt_of_lt_of_le (h.below id hid) (store.nextFile_le_run step)
    · obtain ⟨file, hfile, rfl⟩ := List.mem_map.mp (holds_of_mem_issued hconsistent hid)
      exact (consistent_step hconsistent step).below file hfile
  stored file hfile := by
    rcases mem_files_of_step hfile with ⟨old, hold, -, hid⟩ | ⟨_, _, _, _, _, _, rfl, -, -, hok⟩
    · exact List.mem_append_left _ (hid ▸ h.stored old hold)
    · exact List.mem_append_right _ (issued_upsert hok ▸ List.mem_singleton_self _)

theorem Counted.afterSteps {store : Store} {ids : List FileId} (h : store.Counted ids)
    (hconsistent : store.tables.Consistent) (steps : List Step) :
    (store.afterSteps steps).Counted (ids ++ store.issuedBy steps) := by
  induction steps generalizing store ids with
  | nil =>
    rw [issuedBy, List.append_nil]
    exact h
  | cons step rest ih =>
    rw [afterSteps_cons, issuedBy, ← List.append_assoc]
    exact ih (h.step hconsistent step) (consistent_step hconsistent step)

theorem files_intrusion (store : Store) (intrusion : Intrusion) :
    (intrusion.run store).tables.files = store.tables.files ∧
      (intrusion.run store).tables.nextFile = store.tables.nextFile := by
  have hkept : ∀ {change : Except Fault (Tables × Unit)},
      (∀ tables, change = .ok (tables, ()) →
        tables.files = store.tables.files ∧ tables.nextFile = store.tables.nextFile) →
      (store.commit change).1.tables.files = store.tables.files ∧
        (store.commit change).1.tables.nextFile = store.tables.nextFile := fun hchange =>
    commit_keeps
      (p := fun tables =>
        tables.files = store.tables.files ∧ tables.nextFile = store.tables.nextFile)
      ⟨rfl, rfl⟩ fun tables _ heq => hchange tables heq
  cases intrusion with
  | addEntry entry =>
    refine hkept fun tables hchange => ?_
    split at hchange
    · cases hchange
    · obtain ⟨appended, happend, hchange⟩ := Tables.bind_eq_ok_iff.mp hchange
      obtain ⟨entries, hentries, rfl⟩ := Tables.appendEntry_ok happend
      split at hchange <;> cases hchange
      exact ⟨rfl, rfl⟩
  | alterLedger =>
    refine hkept fun tables hchange => ?_
    obtain ⟨entries, -, hchange⟩ := Tables.bind_eq_ok_iff.mp hchange
    split at hchange <;> cases hchange
    exact ⟨rfl, rfl⟩
  | closeLedger =>
    refine hkept fun tables hchange => ?_
    obtain ⟨entries, -, hchange⟩ := Tables.bind_eq_ok_iff.mp hchange
    cases hchange
    exact ⟨rfl, rfl⟩
  | setTagsText id tags =>
    refine hkept fun tables hchange => ?_
    obtain ⟨rows, -, hchange⟩ := Tables.bind_eq_ok_iff.mp hchange
    cases hchange
    exact ⟨rfl, rfl⟩
  | dropTable table =>
    refine hkept fun tables hchange => ?_
    cases table <;> obtain ⟨rows, -, hchange⟩ := Tables.map_eq_ok_iff.mp hchange <;> cases hchange <;>
      exact ⟨rfl, rfl⟩

theorem Issued.counted {store : Store} {ids : List FileId} (h : store.Issued ids) :
    store.Counted ids := by
  induction h with
  | opened settings => exact ⟨by simp, by simp [ofTables, Tables.complete]⟩
  | operation operation hissued ih =>
    rw [operation.run_eq_afterSteps]
    exact ih.afterSteps hissued.reachable.consistent _
  | @intrusion store ids intrusion _ ih =>
    obtain ⟨hfiles, hnext⟩ := store.files_intrusion intrusion
    exact ⟨hnext ▸ ih.below, hfiles ▸ ih.stored⟩

/-! ### Keys -/

/-- Paths and ids name one file each, every row belongs to a file, and there is one row in each place. -/
structure WellKeyed (store : Store) : Prop where
  paths : (store.tables.files.map (·.path)).Nodup
  ids : (store.tables.files.map (·.id)).Nodup
  lookup (path : Path) (file : FileRecord) :
    store.fileAt? path = some file ↔ file.path = path.text ∧ store.file? file.id = some file
  fields : ∀ row ∈ store.tables.fields.getD [], ∃ file, store.file? row.file = some file
  history : ∀ entry ∈ store.tables.ledger.getD [], ∃ file, store.file? entry.file = some file
  hashes : ∀ row ∈ store.tables.hashes.getD [], ∃ file, store.file? row.file = some file
  favorites : ∀ row ∈ store.tables.favorites.getD [], ∃ file, store.file? row.file = some file
  oneValue : ((store.tables.fields.getD []).map fun row => (row.file, row.field)).Nodup
  oneHash : ((store.tables.hashes.getD []).map fun row => (row.file, row.algorithm)).Nodup
  oneFavorite : ((store.tables.favorites.getD []).map (·.file)).Nodup

theorem exists_file?_of_holds {store : Store} {id : FileId} (h : store.tables.Holds id) :
    ∃ file, store.file? id = some file := by
  have hfound := Tables.file?_isNone_eq_false_iff.mpr h
  show ∃ file, store.tables.file? id = some file
  rw [← Option.isSome_iff_exists]
  simpa using hfound

theorem wellKeyed_of_consistent {store : Store} (h : store.tables.Consistent) : store.WellKeyed where
  paths := h.paths
  ids := h.ids
  lookup _ _ := h.fileAt?_iff_file?
  fields row hrow := exists_file?_of_holds (h.fieldsOwned row hrow)
  history entry hentry := exists_file?_of_holds (h.entriesOwned entry hentry)
  hashes row hrow := exists_file?_of_holds (h.hashesOwned row hrow)
  favorites row hrow := exists_file?_of_holds (h.favoritesOwned row hrow)
  oneValue := by
    refine List.pairwise_map.mpr (h.fieldsApart.imp fun hapart heq => ?_)
    obtain ⟨hfile, hfield⟩ := Prod.mk.inj heq
    exact hapart hfile hfield
  oneHash := h.hashesApart
  oneFavorite := h.favoritesApart

end Store

/-! ### New files -/

theorem Tables.Consistent.dossier_of_not_holds {tables : Tables} (h : tables.Consistent) {id : FileId}
    (hid : ¬tables.Holds id) : tables.dossier id = {} := by
  have hnone : ∀ {α : Type} {rows : List α} {file : α → FileId},
      (∀ row ∈ rows, tables.Holds (file row)) → rows.filter (fun row => file row == id) = [] := by
    intro α rows file howned
    refine List.filter_eq_nil_iff.mpr fun row hrow heq => hid ?_
    exact beq_iff_eq.mp heq ▸ howned row hrow
  have hrecord : tables.file? id = none := by
    simpa using mt Tables.file?_isNone_eq_false_iff.mp hid
  rw [dossier, hrecord, hnone h.fieldsOwned, hnone h.entriesOwned, hnone h.hashesOwned,
    hnone h.favoritesOwned]

namespace Store

/-- A path was stored as a new file: its id is a later one than all these, and of the file nothing is
held but what was given. -/
structure StartsAnew (ids : List FileId) (now : Timestamp) (path : Path)
    (hashes : Option (List (String × String))) (favorite : Option FavoriteInput) (store : Store)
    (id : FileId) : Prop where
  later : ∀ old ∈ ids, old < id
  record : ∃ file, store.fileAt? path = some file ∧ file.id = id
  history : ∀ limit offset, store.history id limit offset = []
  hashes : store.hashes id = keyed (hashes.getD [])
  favorites : (store.tables.dossier id).favorites =
    favorite.toList.map fun input => ⟨id, now, input.notes, tagsText input.tags⟩

theorem fileAt?_delete {store : Store} (h : store.tables.Consistent) (path : Path) :
    (store.delete path).1.fileAt? path = none := by
  rw [delete]
  split
  · rename_i file hfile
    obtain ⟨hmem, hpath⟩ := Tables.mem_of_fileAt? hfile
    refine Tables.fileAt?_eq_none_iff.mpr fun hleft => ?_
    obtain ⟨other, hother, hsame⟩ := List.mem_map.mp hleft
    obtain ⟨hother, hne⟩ := List.mem_filter.mp hother
    have heq := List.inj_on_of_nodup_map h.paths hother hmem (hsame.trans hpath.symm)
    rw [heq] at hne
    simp at hne
  · rename_i hnone
    exact hnone

theorem startsAnew_upsert {store store' : Store} {ids : List FileId} {files : FileTree}
    {now : Timestamp} {path : Path} {document : Json.Value}
    {hashes : Option (List (String × String))} {favorite : Option FavoriteInput} {id : FileId}
    (hcounted : store.Counted ids) (h : store.tables.Consistent) (hnew : store.fileAt? path = none)
    (hok : store.upsert files now path document hashes favorite = (store', .ok id)) :
    StartsAnew ids now path hashes favorite store' id := by
  obtain ⟨seen, -, hupsert, -⟩ := upsert_ok hok
  obtain ⟨-, stored, time, hstored, hdossier⟩ := Tables.upsert_dossier hupsert
  obtain rfl := hstored.id_eq_of_new hnew
  have htime : time = now := hstored.time_eq_of_new hnew
  have hempty := h.dossier_of_not_holds h.not_holds_nextFile
  have hledger := hstored.ledger_eq
  rw [Tables.recordedBy_of_new hnew, List.append_nil] at hledger
  have hentries : (store'.tables.dossier store.tables.nextFile).entries = [] := by
    rw [hdossier]
    show (stored.dossier store.tables.nextFile).entries = []
    rw [Tables.dossier, hledger]
    exact congrArg Dossier.entries hempty
  rw [hempty] at hdossier
  constructor
  case later => exact hcounted.below
  case record =>
    obtain ⟨stored', _, hashRows, favoriteRows, hstored', htables⟩ := Tables.upsert_stored hupsert
    obtain ⟨file, hfile, hpath, hid⟩ := hstored'.exists_file
    have hmem : file ∈ store'.tables.files := htables ▸ hfile
    exact ⟨file, (h.upsert hupsert).1.fileAt?_eq_some_iff.mpr ⟨hmem, hpath⟩, hid⟩
  case history =>
    intro limit offset
    show window limit offset (store'.tables.wholeHistory store.tables.nextFile) = []
    rw [Tables.wholeHistory_eq, hentries]
    simp [sortBy, window]
  case hashes =>
    show store'.tables.hashesOf store.tables.nextFile = keyed (hashes.getD [])
    rw [Tables.hashesOf_eq, hdossier]
    cases hashes with
    | none => rfl
    | some given =>
      have hrows : mergedHashes store.tables.nextFile (some given) [] =
          hashRows store.tables.nextFile (keyed given) := rfl
      simp only [hrows, map_hashRows, (ascending_keyed given).keyed_eq, Option.getD_some]
  case favorites =>
    rw [hdossier, htime]
    cases favorite <;> rfl

/-- In every catalog that can be reached paths and ids are one to one, and each new file gets an id that
was never handed out. -/
theorem Reachable.wellKeyed {store : Store} (h : store.Reachable) :
    store.WellKeyed ∧ (∃ ids, store.Issued ids) ∧
      ∀ ids, store.Issued ids →
        (∀ file ∈ store.tables.files, file.id ∈ ids) ∧
        (∀ path, (store.delete path).1.fileAt? path = none) ∧
        ∀ (files : FileTree) (now : Timestamp) (path : Path) (document : Json.Value)
          (hashes : Option (List (String × String))) (favorite : Option FavoriteInput)
          (store' : Store) (id : FileId), store.fileAt? path = none →
          store.upsert files now path document hashes favorite = (store', .ok id) →
          StartsAnew ids now path hashes favorite store' id := by
  refine ⟨wellKeyed_of_consistent h.consistent, h.exists_issued, fun ids hids => ?_⟩
  refine ⟨hids.counted.stored, fileAt?_delete h.consistent, ?_⟩
  intro files now path document hashes favorite store' id hnew hok
  exact startsAnew_upsert hids.counted h.consistent hnew hok

set_option maxRecDepth 2000 in
/-- A favorite with hashes and a history is deleted. Stored again it has none of them. -/
theorem wellKeyed_after_deletion :
    let files : FileTree := ⟨[(["a"], .file (.sound [1]) 0)]⟩
    let first : Json.Value := .object [("c", .object [("k", .string "x")])]
    let second : Json.Value := .object [("c", .object [("k", .string "y")])]
    let operations : List Operation :=
      [.single (.upsert files "5" "a" first (some [("p", "1")]) (some ⟨some "n", ["t"]⟩)),
       .single (.upsert files "6" "a" second none none), .single (.delete "a")]
    let store := (ofTables {} {}).after operations
    let done := store.upsert files "7" "a" first (some [("q", "2")]) none
    (store.Reachable ∧ store.Issued [1, 1] ∧ store.fileAt? "a" = none ∧ done = (done.1, .ok 2)) ∧
      store.WellKeyed ∧ StartsAnew [1, 1] "7" "a" (some [("q", "2")]) none done.1 2 ∧
      (done.1.history 2 10 0, done.1.hashes 2, done.1.isFavorite 2) = ([], [("q", "2")], false) := by
  intro files first second operations store done
  have hreachable : store.Reachable := (Reachable.opened {}).after operations
  have hissued : store.Issued [1, 1] := by
    have hids : [] ++ (ofTables {} {}).issuedBy (operations.flatMap Operation.steps) = [1, 1] := by
      decide +kernel
    exact hids ▸ (Issued.opened {}).after operations
  have hnew : store.fileAt? "a" = none := by decide +kernel
  have hok : done.2 = .ok 2 := by decide +kernel
  have hdone : done = (done.1, .ok 2) := by rw [← hok]
  obtain ⟨hkeyed, -, hids⟩ := hreachable.wellKeyed
  obtain ⟨-, -, hfresh⟩ := hids _ hissued
  exact ⟨⟨hreachable, hissued, hnew, hdone⟩, hkeyed, hfresh _ _ _ _ _ _ _ _ hnew hdone,
    by decide +kernel⟩

end Store

end Catalog
