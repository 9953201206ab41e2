import Catalog.Proofs.Store.History
import Mathlib.Data.List.Induction

/-! The ledger tells everything about explicit fields: whatever was done to a catalog, the history of a
file, read from its oldest entry on, leads from the fields with which the file was first stored to those
that it has. -/

namespace Catalog

open Catalog.Order

/-! ### Replaying -/

/-- The change that an entry stands for; none if its values do not fit its kind. -/
def LedgerEntry.change? (entry : LedgerEntry) : Option Change :=
  match entry.kind, entry.old, entry.new with
  | .added, none, some new => some (.added new)
  | .updated, some old, some new => some (.updated old new)
  | .removed, some old, none => some (.removed old)
  | _, _, _ => none

/-- The map after the changes of some entries, one after the other; none if one of them does not apply
when its turn comes. -/
def FieldMap.replay? (fields : FieldMap) : List LedgerEntry → Option FieldMap
  | [] => some fields
  | entry :: rest =>
    (entry.change?.bind (fields.alter? entry.field)).bind fun next => replay? next rest

namespace FieldMap

theorem replay?_append (fields : FieldMap) (first rest : List LedgerEntry) :
    fields.replay? (first ++ rest) = (fields.replay? first).bind fun next => next.replay? rest := by
  induction first generalizing fields with
  | nil => rfl
  | cons entry later ih =>
    rw [List.cons_append, replay?, replay?]
    cases entry.change?.bind (fields.alter? entry.field) with
    | none => rfl
    | some next => exact ih next

/-- Entries for changes do what the changes do. -/
theorem replay?_entriesFor (fields : FieldMap) (id : FileId) (recorded : Timestamp) (first : Nat)
    (changes : List (FieldKey × Change)) :
    fields.replay? (entriesFor id recorded first changes) = fields.alterAll? changes := by
  induction changes generalizing fields first with
  | nil => rfl
  | cons e rest ih =>
    obtain ⟨field, change⟩ := e
    have hchange : LedgerEntry.change?
        ⟨first, id, recorded, change.kind, field, change.old?, change.new?⟩ = some change := by
      cases change <;> rfl
    rw [entriesFor, replay?, hchange, Option.bind_some, alterAll?]
    congr 1
    funext next
    exact ih next (first + 1)

end FieldMap

/-! ### One file -/

namespace Tables

theorem Consistent.wholeHistory_eq_nil {tables : Tables} (h : tables.Consistent) {id : FileId}
    (hid : ¬tables.Holds id) : tables.wholeHistory id = [] := by
  refine List.eq_nil_iff_forall_not_mem.mpr fun entry hentry => ?_
  obtain ⟨hmem, rfl⟩ := mem_wholeHistory.mp hentry
  exact hid (h.entriesOwned entry hmem)

/-- As long as the file is stored, its history leads from the given fields to those that it has. -/
structure Tracks (id : FileId) (baseline : FieldMap) (tables : Tables) : Prop where
  known : id < tables.nextFile
  replays : tables.Holds id →
    baseline.replay? (tables.wholeHistory id).reverse = some (tables.explicitOf id)

section

variable {tables tables' : Tables} {now time : Timestamp} {path : String} {seen : Observation}
  {extracted : Extracted} {id changed : FileId} {baseline : FieldMap}

/-- A new file has the fields that it is stored with, and no history. -/
theorem Stored.tracks (h : Stored tables now path seen extracted tables' id time)
    (hconsistent : tables.Consistent) (hordered : extracted.Ordered)
    (hnew : tables.fileAt? path = none) : Tracks id extracted.explicit tables' where
  known := by
    obtain ⟨file, hfile, -, rfl⟩ := h.exists_file
    exact (h.consistent hconsistent).1.below file hfile
  replays _ := by
    have hold : tables.wholeHistory id = [] :=
      hconsistent.wholeHistory_eq_nil (h.id_eq_of_new hnew ▸ hconsistent.not_holds_nextFile)
    rw [h.wholeHistory_eq hconsistent, recordedBy_of_new hnew, hold,
      (h.fields_eq hconsistent hordered).1]
    rfl

/-- Storing a file, this one or another, extends the history of this one by what leads to its new
fields. -/
theorem Tracks.stored (h : Tracks id baseline tables) (hconsistent : tables.Consistent)
    (hordered : extracted.Ordered)
    (hstored : Stored tables now path seen extracted tables' changed time) :
    Tracks id baseline tables' where
  known := Int.lt_of_lt_of_le h.known hstored.nextFile_le
  replays hheld := by
    -- A file with a known id is not the new one, so it was stored before.
    have hbefore : tables.Holds id := by
      obtain ⟨file, hfile, rfl⟩ := List.mem_map.mp hheld
      rcases hstored.mem_files hfile with ⟨old, hold, -, heq⟩ | ⟨hnew, -, heq⟩
      · exact List.mem_map.mpr ⟨old, hold, heq⟩
      · have hnext := heq.trans (hstored.id_eq_of_new hnew)
        exact absurd h.known (hnext ▸ Int.lt_irrefl _)
    by_cases heq : id = changed
    · subst heq
      obtain ⟨file, hfile⟩ : ∃ file, tables.fileAt? path = some file := by
        cases hfound : tables.fileAt? path with
        | some file => exact ⟨file, rfl⟩
        | none => exact absurd h.known (hstored.id_eq_of_new hfound ▸ Int.lt_irrefl _)
      obtain rfl := hstored.id_eq_of_fileAt? hfile
      rw [hstored.wholeHistory_eq hconsistent, List.reverse_append, List.reverse_reverse,
        FieldMap.replay?_append, h.replays hbefore, Option.bind_some, recordedBy_of_fileAt? hfile,
        FieldMap.replay?_entriesFor, (hstored.fields_eq hconsistent hordered).1]
      exact FieldMap.alterAll?_changes (ascending_fieldsAmong _ _ _) hordered.explicit
    · rw [hstored.wholeHistory_of_ne heq, h.replays hbefore, explicitOf, explicitOf,
        hstored.fieldsAmong_of_ne heq]

theorem Tracks.eraseFile (h : Tracks id baseline tables) (erased : FileId) :
    Tracks id baseline (tables.eraseFile erased) where
  known := h.known
  replays hheld := by
    obtain ⟨file, hfile, rfl⟩ := List.mem_map.mp hheld
    obtain ⟨hfile, hne⟩ := List.mem_filter.mp hfile
    have hne : file.id ≠ erased := by simpa using hne
    have hexplicit : (tables.eraseFile erased).explicitOf file.id = tables.explicitOf file.id := by
      rw [explicitOf, Tables.eraseFile, getD_map_filter, fieldsAmong_filter_of_ne hne, explicitOf]
    rw [wholeHistory_eraseFile, if_neg hne, hexplicit]
    exact h.replays (List.mem_map.mpr ⟨file, hfile, rfl⟩)

theorem Tracks.of_eq (h : Tracks id baseline tables) (hfiles : tables'.files = tables.files)
    (hfields : tables'.fields.getD [] = tables.fields.getD [])
    (hledger : tables'.ledger.getD [] = tables.ledger.getD [])
    (hnext : tables'.nextFile = tables.nextFile) : Tracks id baseline tables' where
  known := hnext ▸ h.known
  replays hheld := by
    rw [Holds, hfiles] at hheld
    rw [wholeHistory, hledger, explicitOf, hfields]
    exact h.replays hheld

end

end Tables

/-! ### Whole runs -/

namespace Store

/-- Whatever step is done, the history of a file keeps leading to its fields. -/
theorem tracks_step {store : Store} {id : FileId} {baseline : FieldMap}
    (hconsistent : store.tables.Consistent) (h : Tables.Tracks id baseline store.tables) (step : Step) :
    Tables.Tracks id baseline (step.run store).tables := by
  have heffect := effect_run store step
  generalize step.run store = store' at heffect ⊢
  cases heffect with
  | stored hok hstored =>
    exact (h.stored hconsistent (Extracted.ordered_ofDocument _ _) hstored).of_eq rfl rfl rfl rfl
  | failed => exact h
  | deleted => exact h.eraseFile _
  | absent => exact h
  | toggled => exact h.of_eq rfl rfl rfl rfl
  | reopened => exact h.of_eq rfl rfl rfl rfl

/-- A file that is stored after a step was stored before, or the step is the upsert that stores it
anew. -/
theorem mem_files_of_step {store : Store} {step : Step} {file : FileRecord}
    (h : file ∈ (step.run store).tables.files) :
    (∃ old ∈ store.tables.files, old.path = file.path ∧ old.id = file.id) ∨
      ∃ files now path document hashes favorite,
        step = .upsert files now path document hashes favorite ∧ path.text = file.path ∧
          store.fileAt? path = none ∧
          (store.upsert files now path document hashes favorite).2 = .ok file.id := by
  have heffect := effect_run store step
  generalize step.run store = store' at heffect h
  cases heffect with
  | stored hok hstored =>
    rcases hstored.mem_files h with hold | ⟨hnew, hpath, rfl⟩
    · exact .inl hold
    · exact .inr ⟨_, _, _, _, _, _, rfl, hpath.symm, hnew, hok⟩
  | deleted => exact .inl ⟨file, (List.mem_filter.mp h).1, rfl, rfl⟩
  | failed => exact .inl ⟨file, h, rfl, rfl⟩
  | absent => exact .inl ⟨file, h, rfl, rfl⟩
  | toggled => exact .inl ⟨file, h, rfl, rfl⟩
  | reopened => exact .inl ⟨file, h, rfl, rfl⟩

/-- Among the steps is the upsert that stored the path anew under the id, and it stored these explicit
fields. -/
def Inserted (start : Store) (steps : List Step) (path : String) (id : FileId)
    (baseline : FieldMap) : Prop :=
  ∃ before files now source document hashes favorite later,
    steps = before ++ .upsert files now source document hashes favorite :: later ∧
      source.text = path ∧ (start.afterSteps before).fileAt? source = none ∧
      ((start.afterSteps before).upsert files now source document hashes favorite).2 = .ok id ∧
      baseline = flatten (start.afterSteps before).settings.flatten document

theorem Inserted.append {start : Store} {steps : List Step} {path : String} {id : FileId}
    {baseline : FieldMap} (h : start.Inserted steps path id baseline) (added : List Step) :
    start.Inserted (steps ++ added) path id baseline := by
  obtain ⟨before, files, now, source, document, hashes, favorite, later, rfl, hrest⟩ := h
  exact ⟨before, files, now, source, document, hashes, favorite, later ++ added, by simp, hrest⟩

/-- Every file that is stored at the end of a run was stored anew by one of its steps. -/
theorem exists_inserted {start : Store} (hempty : start.tables.files = []) (steps : List Step)
    {file : FileRecord} (hfile : file ∈ (start.afterSteps steps).tables.files) :
    ∃ baseline, start.Inserted steps file.path file.id baseline := by
  -- From the end: the last step stores the file anew, or it was there before under its path and id.
  induction steps using List.reverseRecOn generalizing file with
  | nil => simp [afterSteps, hempty] at hfile
  | append_singleton steps step ih =>
    rw [afterSteps_append] at hfile
    rcases mem_files_of_step hfile with ⟨old, hold, hpath, hid⟩ | ⟨files, now, source, document,
      hashes, favorite, rfl, hpath, hnew, hok⟩
    · obtain ⟨baseline, hinserted⟩ := ih hold
      exact ⟨baseline, hpath ▸ hid ▸ hinserted.append [step]⟩
    · exact ⟨_, steps, files, now, source, document, hashes, favorite, [], rfl, hpath, hnew, hok, rfl⟩

/-- From the upsert that stored a file on, the history of the file leads from the fields stored then to
those that it has. -/
theorem Inserted.tracks {start : Store} (hconsistent : start.tables.Consistent)
    {steps : List Step} {path : String} {id : FileId} {baseline : FieldMap}
    (h : start.Inserted steps path id baseline) :
    Tables.Tracks id baseline (start.afterSteps steps).tables := by
  obtain ⟨before, files, now, source, document, hashes, favorite, later, rfl, -, hnew, hok, rfl⟩ := h
  have hbefore := consistent_afterSteps hconsistent before
  rw [afterSteps_append, afterSteps_cons]
  obtain ⟨store', hresult⟩ : ∃ store', (start.afterSteps before).upsert files now source document
      hashes favorite = (store', .ok id) := ⟨_, by rw [← hok]⟩
  have hstep : Step.run (start.afterSteps before)
      (.upsert files now source document hashes favorite) = store' := by rw [Step.run, hresult]
  have htracks : Tables.Tracks id
      (flatten (start.afterSteps before).settings.flatten document) store'.tables := by
    obtain ⟨seen, stored, time, hashRows, favoriteRows, hstored, rfl⟩ := upsert_stored hresult
    exact (hstored.tracks hbefore (Extracted.ordered_ofDocument _ _) hnew).of_eq rfl rfl rfl rfl
  have hafter : store'.tables.Consistent := hstep ▸ consistent_step hbefore _
  rw [hstep]
  exact (afterSteps_keeps (p := fun store => store.tables.Consistent ∧
      Tables.Tracks id (flatten (start.afterSteps before).settings.flatten document) store.tables)
    ⟨hafter, htracks⟩ (fun _ step h => ⟨consistent_step h.1 step, tracks_step h.1 h.2 step⟩) later).2

/-- After any run of operations, the history of a file replays: from the explicit fields with which
the file was stored anew it leads, entry by entry, to those that it has. -/
theorem history_replays (settings : Settings) (operations : List Operation) {file : FileRecord}
    (hfile : file ∈ ((ofTables settings {}).after operations).tables.files) :
    let start := ofTables settings {}
    let steps := operations.flatMap Operation.steps
    let final := start.after operations
    (∃ baseline, start.Inserted steps file.path file.id baseline) ∧
      ∀ baseline, start.Inserted steps file.path file.id baseline →
        baseline.replay? (final.tables.wholeHistory file.id).reverse =
          some (final.tables.explicitOf file.id) := by
  intro start steps final
  have hheld : final.tables.Holds file.id := List.mem_map.mpr ⟨file, hfile, rfl⟩
  have hfinal : final = start.afterSteps steps := after_eq_afterSteps start operations
  constructor
  · exact exists_inserted rfl steps (hfinal ▸ hfile)
  · intro baseline hinserted
    have htracks := hinserted.tracks Tables.consistent_empty.complete
    rw [← hfinal] at htracks
    exact htracks.replays hheld

set_option maxRecDepth 2000 in
/-- A file that was deleted and stored anew, and then stored with other fields by a clock that had gone
back. -/
theorem history_replays_after_deletion :
    let files : Files.FileTree := ⟨[(["a"], .file (.sound [1]) 0)]⟩
    let first : Json.Value := .object [("c", .object [("k", .string "x"), ("l", .string "y")])]
    let second : Json.Value := .object [("c", .object [("k", .string "z"), ("m", .string "y")])]
    let insert : Step := .upsert files "5" "a" first none none
    let update : Step := .upsert files "4" "a" second none none
    let operations : List Operation :=
      [.single insert, .single update, .single (.delete "a"), .single insert, .single update]
    let file : FileRecord :=
      ⟨2, "a", "4bf5122f344554c53bde2ebb8cd2b7e3d1600ad631c385a5d7cce23c7785459a", 1, 0,
       "application/octet-stream", "5", "4"⟩
    let baseline : FieldMap := [(⟨"c", "k"⟩, "x"), (⟨"c", "l"⟩, "y")]
    (file ∈ ((ofTables {} {}).after operations).tables.files ∧
        (ofTables {} {}).Inserted (operations.flatMap Operation.steps) file.path file.id baseline) ∧
      baseline.replay? (((ofTables {} {}).after operations).tables.wholeHistory file.id).reverse =
        some (((ofTables {} {}).after operations).tables.explicitOf file.id) ∧
      ((ofTables {} {}).after operations).tables.wholeHistory file.id =
        [⟨6, 2, "4", .added, ⟨"c", "m"⟩, none, some "y"⟩,
         ⟨5, 2, "4", .removed, ⟨"c", "l"⟩, some "y", none⟩,
         ⟨4, 2, "4", .updated, ⟨"c", "k"⟩, some "x", some "z"⟩] := by
  intro files first second insert update operations file baseline
  have hfile : file ∈ ((ofTables {} {}).after operations).tables.files := by decide +kernel
  have hinserted :
      (ofTables {} {}).Inserted (operations.flatMap Operation.steps) file.path file.id baseline :=
    ⟨[insert, update, .delete "a"], files, "5", "a", first, none, none, [update], rfl,
      by decide +kernel, by decide +kernel, by decide +kernel, by decide +kernel⟩
  have hreplays := (history_replays _ _ hfile).2 baseline hinserted
  exact ⟨⟨hfile, hinserted⟩, hreplays, by decide +kernel⟩

end Store

end Catalog
