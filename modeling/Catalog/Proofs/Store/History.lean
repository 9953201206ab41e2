import Catalog.Proofs.Store.Contents

/-! The ledger is append-only. Whatever the clock says and whatever entries were added by hand, an upsert
puts its changes in front of the history of its file, and nothing else alters the history of a file that
stays. -/

namespace Catalog

open Catalog.Files

/-- The history of every file is the same in both. -/
def Tables.SameHistories (tables tables' : Tables) : Prop :=
  ∀ id, tables'.wholeHistory id = tables.wholeHistory id

theorem Tables.SameHistories.of_ledger {tables tables' : Tables}
    (h : tables'.ledger.getD [] = tables.ledger.getD []) : tables.SameHistories tables' := by
  intro id
  rw [wholeHistory, h, wholeHistory]

namespace Tables

theorem wholeHistory_eraseFile (tables : Tables) (erased id : FileId) :
    (tables.eraseFile erased).wholeHistory id =
      if id = erased then [] else tables.wholeHistory id := by
  have hledger : ((tables.eraseFile erased).ledger.getD []).filter (fun entry => entry.file == id) =
      (tables.ledger.getD []).filter fun entry => entry.file == id && entry.file != erased := by
    rw [eraseFile, getD_map_filter, List.filter_filter]
  rw [wholeHistory, hledger, wholeHistory]
  by_cases h : id = erased
  · subst h
    have hnone : (tables.ledger.getD []).filter (fun entry => entry.file == id && entry.file != id) =
        [] := List.filter_eq_nil_iff.mpr fun entry _ => by simp
    rw [hnone, if_pos rfl]
    rfl
  · rw [if_neg h]
    congr 2
    funext entry
    by_cases hfile : entry.file = id <;> simp [hfile, h]

end Tables

theorem getElem?_window {α : Type} (limit offset : Nat) (xs : List α) (k : Nat) :
    (window limit offset xs)[k]? = if k < limit then xs[offset + k]? else none := by
  rw [window, List.getElem?_take, List.getElem?_drop]

namespace Store

/-- What the operations of a catalog do to histories. -/
structure AppendOnly (store : Store) : Prop where
  /-- Storing a known file again puts its changes, the last one first, in front of its history. -/
  stored {files : FileTree} {now : Timestamp} {path : Path} {document : Json.Value}
    {hashes : Option (List (String × String))} {favorite : Option FavoriteInput}
    {file : FileRecord} {store' : Store} {id : FileId} (hfile : store.fileAt? path = some file)
    (hok : store.upsert files now path document hashes favorite = (store', .ok id)) :
    ∃ time, store'.tables.wholeHistory file.id =
        (entriesFor file.id time store.tables.nextEntry
          (FieldMap.changes (store.tables.explicitOf file.id)
            (store'.tables.explicitOf file.id))).reverse ++
          store.tables.wholeHistory file.id ∧
      ∀ other ≠ file.id, store'.tables.wholeHistory other = store.tables.wholeHistory other
  added {files : FileTree} {now : Timestamp} {path : Path} {document : Json.Value}
    {hashes : Option (List (String × String))} {favorite : Option FavoriteInput}
    (hnew : store.fileAt? path = none) :
    store.tables.SameHistories (store.upsert files now path document hashes favorite).1.tables
  failed {files : FileTree} {now : Timestamp} {path : Path} {document : Json.Value}
    {hashes : Option (List (String × String))} {favorite : Option FavoriteInput}
    {store' : Store} {cause : StoreError}
    (herror : store.upsert files now path document hashes favorite = (store', .error cause)) :
    store.tables.SameHistories store'.tables
  /-- A deleted file has no history, and all others have theirs. -/
  deleted {path : Path} {file : FileRecord} (hfile : store.fileAt? path = some file) (id : FileId) :
    (store.delete path).1.tables.wholeHistory id =
      if id = file.id then [] else store.tables.wholeHistory id
  absent {path : Path} (hnew : store.fileAt? path = none) :
    store.tables.SameHistories (store.delete path).1.tables
  toggled (now : Timestamp) (id : FileId) (notes : Option String) (tags : List String) :
    store.tables.SameHistories (store.toggleFavorite now id notes tags).1.tables
  reopened (settings : Settings) : store.tables.SameHistories (store.reopen settings).tables
  /-- A scan is a list of upserts. -/
  scanned (files : FileTree) (clock : Nat → Timestamp) (root : Path) :
    (Import.scan store files clock root).1 =
        store.afterSteps (Operation.scan files clock root).steps ∧
      ∀ step ∈ (Operation.scan files clock root).steps, ∃ now path document hashes,
        step = .upsert files now path document hashes none
  /-- A page of a history is the window of so many entries at the offset. -/
  paged (id : FileId) (limit offset k : Nat) :
    (store.history id limit offset)[k]? =
      if k < limit then (store.tables.wholeHistory id)[offset + k]? else none

/-- The ledger of every catalog that can be reached is append-only, also after entries of any time were
added to it by hand. -/
theorem Reachable.appendOnly {store : Store} (h : store.Reachable) : store.AppendOnly where
  stored {files now path document hashes favorite file store' id} hfile hok := by
    obtain ⟨seen, stored, time, hashRows, favoriteRows, hstored, rfl⟩ := upsert_stored hok
    obtain rfl : id = file.id := hstored.id_eq_of_fileAt? hfile
    have hnew : stored.explicitOf file.id = flatten store.settings.flatten document :=
      (hstored.fields_eq h.consistent (Extracted.ordered_ofDocument _ _)).1
    have hhistory := hstored.wholeHistory_eq h.consistent
    rw [Tables.recordedBy_of_fileAt? hfile] at hhistory
    refine ⟨time, ?_, fun other hne => hstored.wholeHistory_of_ne hne⟩
    rw [show Extracted.explicit _ = stored.explicitOf file.id from hnew.symm] at hhistory
    exact hhistory
  added {files now path document hashes favorite} hnew := by
    cases hresult : store.upsert files now path document hashes favorite with
    | mk store' result =>
      cases result with
      | error cause =>
        rw [upsert_error hresult]
        exact .of_ledger rfl
      | ok id =>
        obtain ⟨seen, stored, time, hashRows, favoriteRows, hstored, rfl⟩ := upsert_stored hresult
        have hledger := hstored.ledger_eq
        rw [Tables.recordedBy_of_new hnew, List.append_nil] at hledger
        exact .of_ledger hledger
  failed herror := by
    rw [upsert_error herror]
    exact .of_ledger rfl
  deleted {path file} hfile id := by
    have hdelete : (store.delete path).1.tables = store.tables.eraseFile file.id := by
      rw [delete, show store.tables.fileAt? path.text = some file from hfile]
    rw [hdelete, Tables.wholeHistory_eraseFile]
  absent {path} hnew := by
    rw [delete, show store.tables.fileAt? path.text = none from hnew]
    exact .of_ledger rfl
  toggled now id notes tags := by
    refine commit_keeps (p := store.tables.SameHistories) (.of_ledger rfl) ?_
    intro tables on hchange
    obtain ⟨rows, rfl⟩ := Tables.toggleFavorite_eq hchange
    exact .of_ledger rfl
  reopened settings := .of_ledger rfl
  scanned files clock root := by
    refine ⟨(Operation.scan files clock root).run_eq_afterSteps store, fun step hstep => ?_⟩
    rw [Operation.steps] at hstep
    split at hstep
    · obtain ⟨now, path, -, job, -, hupsert⟩ := exists_job_of_mem_intake hstep
      exact ⟨_, _, _, _, hupsert⟩
    · cases hstep
  paged id limit offset k := getElem?_window limit offset _ k

set_option maxRecDepth 2000 in
/-- An entry of a late time was added by hand, and the clock has gone back behind it. -/
theorem appendOnly_behind_late_entry :
    let files : FileTree := ⟨[(["a"], .file (.sound [1]) 0)]⟩
    let first : Json.Value := .object [("c", .object [("k", .string "x"), ("l", .string "y")])]
    let second : Json.Value := .object [("c", .object [("k", .string "z")])]
    let late : ForeignEntry := ⟨1, "9", "added", ⟨"d", "m"⟩, none, some "w"⟩
    let store := Intrusion.run
      ((ofTables {} {}).after [.single (.upsert files "5" "a" first none none)]) (.addEntry late)
    let done := store.upsert files "4" "a" second none none
    (store.Reachable ∧ (store.fileAt? "a").map (·.id) = some 1 ∧ done = (done.1, .ok 1)) ∧
      (∃ time, done.1.tables.wholeHistory 1 =
        (entriesFor 1 time store.tables.nextEntry
          (FieldMap.changes (store.tables.explicitOf 1) (done.1.tables.explicitOf 1))).reverse ++
          store.tables.wholeHistory 1) ∧
      done.1.tables.wholeHistory 1 =
        [⟨3, 1, "9", .removed, ⟨"c", "l"⟩, some "y", none⟩,
         ⟨2, 1, "9", .updated, ⟨"c", "k"⟩, some "x", some "z"⟩,
         ⟨1, 1, "9", .added, ⟨"d", "m"⟩, none, some "w"⟩] := by
  intro files first second late store done
  have hreachable : store.Reachable := .intrusion (.addEntry late) ((Reachable.opened {}).after _)
  have hid : (store.fileAt? "a").map (·.id) = some 1 := by decide +kernel
  have hok : done.2 = .ok 1 := by decide +kernel
  have hdone : done = (done.1, .ok 1) := by rw [← hok]
  obtain ⟨file, hfile, hfileId⟩ := Option.map_eq_some_iff.mp hid
  obtain ⟨time, hhistory, -⟩ := hreachable.appendOnly.stored hfile hdone
  rw [hfileId] at hhistory
  exact ⟨⟨hreachable, hid, hdone⟩, ⟨time, hhistory⟩, by decide +kernel⟩

end Store

end Catalog
