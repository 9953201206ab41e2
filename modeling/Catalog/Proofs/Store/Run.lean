import Catalog.Import.Scan
import Catalog.Proofs.Store.Consistent

/-! Runs of a catalog: any operations one after the other, whether they succeed or not, and between them
what others do to the tables. Whatever happens, the tables stay in order. -/

namespace Catalog

open Catalog.Files Catalog.Import

/-- A path leads to a file that can be read, or it is told why it does not. -/
theorem Observation.ofPath_cases (files : FileTree) (path : Path) :
    (∃ bytes modified, files.stat path = .ok (.file (.sound bytes) modified) ∧
        ofPath files path = .ok (ofFile bytes modified)) ∨
      ∃ cause, files.read path = .error cause ∧ ofPath files path = .error (.unreadable path cause) := by
  rw [ofPath, FileTree.read]
  cases files.stat path with
  | error cause => exact .inr ⟨cause, rfl, rfl⟩
  | ok entry =>
    cases entry with
    | directory => exact .inr ⟨_, rfl, rfl⟩
    | link => exact .inr ⟨_, rfl, rfl⟩
    | file content modified =>
      cases content with
      | sound bytes => exact .inl ⟨bytes, modified, rfl, rfl⟩
      | broken bytes lost cause => exact .inr ⟨cause, rfl, rfl⟩

/-- An operation that is done in one step. -/
inductive Step where
  | upsert (files : FileTree) (now : Timestamp) (path : Path) (document : Json.Value)
    (hashes : Option (List (String × String))) (favorite : Option FavoriteInput)
  | delete (path : Path)
  | toggleFavorite (now : Timestamp) (id : FileId) (notes : Option String) (tags : List String)
  | reopen (settings : Settings)

/-- What a catalog is asked to do: a single step or a scan. -/
inductive Operation where
  | single (step : Step)
  | scan (files : FileTree) (clock : Nat → Timestamp) (root : Path)

/-- What others do to its tables. -/
inductive Intrusion where
  | addEntry (entry : Store.ForeignEntry)
  | alterLedger
  | closeLedger
  | setTagsText (id : FileId) (tags : String)
  | dropTable (table : Table)

/-- The catalog after a step, whether it succeeds or not. -/
def Step.run (store : Store) : Step → Store
  | upsert files now path document hashes favorite =>
    (store.upsert files now path document hashes favorite).1
  | delete path => (store.delete path).1
  | toggleFavorite now id notes tags => (store.toggleFavorite now id notes tags).1
  | reopen settings => store.reopen settings

/-- The catalog after an operation, whether it succeeds or not. -/
def Operation.run (store : Store) : Operation → Store
  | single step => step.run store
  | scan files clock root => (Import.scan store files clock root).1

/-- The catalog after an intrusion, whether it succeeds or not. -/
def Intrusion.run (store : Store) : Intrusion → Store
  | addEntry entry => (store.addEntry entry).1
  | alterLedger => store.alterLedger.1
  | closeLedger => store.closeLedger.1
  | setTagsText id tags => (store.setTagsText id tags).1
  | dropTable table => (store.dropTable table).1

namespace Store

/-- The catalog after some operations, one after the other. -/
def after (store : Store) (operations : List Operation) : Store :=
  operations.foldl Operation.run store

/-- The catalog after some steps, one after the other. -/
def afterSteps (store : Store) (steps : List Step) : Store := steps.foldl Step.run store

theorem afterSteps_cons (store : Store) (step : Step) (rest : List Step) :
    store.afterSteps (step :: rest) = (step.run store).afterSteps rest := rfl

theorem afterSteps_append (store : Store) (first rest : List Step) :
    store.afterSteps (first ++ rest) = (store.afterSteps first).afterSteps rest :=
  List.foldl_append

/-- The catalogs that a new one can become. -/
inductive Reachable : Store → Prop
  | opened (settings : Settings) : Reachable (ofTables settings {})
  | operation {store : Store} (operation : Operation) :
    Reachable store → Reachable (operation.run store)
  | intrusion {store : Store} (intrusion : Intrusion) :
    Reachable store → Reachable (intrusion.run store)

theorem Reachable.after {store : Store} (h : store.Reachable) (operations : List Operation) :
    (store.after operations).Reachable := by
  induction operations generalizing store with
  | nil => exact h
  | cons operation rest ih => exact ih (h.operation operation)

/-! ### Operations as steps -/

/-- The upserts of a scan that takes in some files. -/
def intake (files : FileTree) (clock : Nat → Timestamp) : List Path → List Step
  | [] => []
  | path :: rest =>
    let later := intake files (fun n => clock (n + 1)) rest
    match Job.ofPath files path with
    | .error _ => later
    | .ok job => .upsert files (clock 0) job.path job.document job.hashes none :: later

theorem takeInAll_fst (store : Store) (files : FileTree) (clock : Nat → Timestamp)
    (paths : List Path) :
    (takeInAll store files clock paths).1 = store.afterSteps (intake files clock paths) := by
  induction paths generalizing store clock with
  | nil => rfl
  | cons path rest ih =>
    rw [takeInAll, ih, takeIn, intake]
    cases Job.ofPath files path with
    | error cause => rfl
    | ok job =>
      dsimp only [write]
      rw [afterSteps_cons, Step.run]
      rcases store.upsert files (clock 0) job.path job.document job.hashes none with ⟨next, _ | _⟩ <;>
        rfl

/-- A scan upserts nothing but what was learned of its files. -/
theorem exists_job_of_mem_intake {files : FileTree} {clock : Nat → Timestamp} {paths : List Path}
    {step : Step} (h : step ∈ intake files clock paths) :
    ∃ now, ∃ path ∈ paths, ∃ job, Job.ofPath files path = .ok job ∧
      step = .upsert files now job.path job.document job.hashes none := by
  induction paths generalizing clock with
  | nil => cases h
  | cons path rest ih =>
    have hlater : step ∈ intake files (fun n => clock (n + 1)) rest → ∃ now, ∃ other ∈ path :: rest,
        ∃ job, Job.ofPath files other = .ok job ∧
          step = .upsert files now job.path job.document job.hashes none := by
      intro hmem
      obtain ⟨now, other, hother, hjob⟩ := ih hmem
      exact ⟨now, other, List.mem_cons_of_mem _ hother, hjob⟩
    rw [intake] at h
    split at h
    · exact hlater h
    · rcases List.mem_cons.mp h with rfl | h
      · exact ⟨_, path, List.mem_cons_self, _, ‹_›, rfl⟩
      · exact hlater h

end Store

/-- The steps of an operation: those of a scan are its upserts. -/
def Operation.steps : Operation → List Step
  | single step => [step]
  | scan files clock root =>
    if files.isDirectory root then Store.intake files clock (sources files root) else []

theorem Operation.run_eq_afterSteps (store : Store) (operation : Operation) :
    operation.run store = store.afterSteps operation.steps := by
  cases operation with
  | single step => rfl
  | scan files clock root =>
    rw [run, steps, Import.scan]
    split
    · exact Store.takeInAll_fst store files clock _
    · rfl

namespace Store

theorem after_eq_afterSteps (store : Store) (operations : List Operation) :
    store.after operations = store.afterSteps (operations.flatMap Operation.steps) := by
  induction operations generalizing store with
  | nil => rfl
  | cons operation rest ih =>
    rw [List.flatMap_cons, afterSteps_append, ← operation.run_eq_afterSteps, ← ih]
    rfl

/-- What every step keeps holds after every run. -/
theorem afterSteps_keeps {p : Store → Prop} {store : Store} (h : p store)
    (hstep : ∀ store step, p store → p (Step.run store step)) (steps : List Step) :
    p (store.afterSteps steps) := by
  induction steps generalizing store with
  | nil => exact h
  | cons step rest ih => exact ih (hstep store step h)

/-! ### Changes of the tables -/

theorem commit_ok {α : Type} {store store' : Store} {change : Except Fault (Tables × α)} {result : α}
    (h : store.commit change = (store', .ok result)) :
    ∃ tables, change = .ok (tables, result) ∧ store' = { store with tables } := by
  unfold commit at h
  split at h
  · cases h
    exact ⟨_, rfl, rfl⟩
  · cases h

theorem commit_error {α : Type} {store store' : Store} {change : Except Fault (Tables × α)}
    {cause : StoreError} (h : store.commit change = (store', .error cause)) : store' = store := by
  unfold commit at h
  split at h
  · cases h
  · cases h
    rfl

/-- What holds of the tables before a change and after it if it succeeds holds in any case. -/
theorem commit_keeps {α : Type} {store : Store} {change : Except Fault (Tables × α)}
    {p : Tables → Prop} (h : p store.tables)
    (hchange : ∀ tables result, change = .ok (tables, result) → p tables) :
    p (store.commit change).1.tables := by
  unfold commit
  split
  · exact hchange _ _ rfl
  · exact h

section

variable {store store' : Store} {files : FileTree} {now : Timestamp} {path : Path}
  {document : Json.Value} {hashes : Option (List (String × String))}
  {favorite : Option FavoriteInput} {id : FileId}

/-- A successful upsert stores what the document yields under the settings in force. -/
theorem upsert_ok (h : store.upsert files now path document hashes favorite = (store', .ok id)) :
    ∃ seen, Observation.ofPath files path = .ok seen ∧
      store.tables.upsert now path.text seen (.ofDocument store.settings.flatten document)
        hashes favorite = .ok (store'.tables, id) ∧ store'.settings = store.settings := by
  rw [upsert] at h
  split at h
  · cases h
  · rename_i seen hseen
    obtain ⟨tables, hchange, rfl⟩ := commit_ok h
    exact ⟨seen, hseen, hchange, rfl⟩

/-- Of the rest of the tables it touches hashes and favorites only. -/
theorem upsert_stored (h : store.upsert files now path document hashes favorite = (store', .ok id)) :
    ∃ seen stored time hashRows favoriteRows,
      Tables.Stored store.tables now path.text seen (.ofDocument store.settings.flatten document)
        stored id time ∧
      store' =
        { store with
          tables := { stored with hashes := hashRows, favorites := favoriteRows } } := by
  obtain ⟨seen, -, hupsert, hsettings⟩ := upsert_ok h
  obtain ⟨stored, time, hashRows, favoriteRows, hstored, htables⟩ := Tables.upsert_stored hupsert
  refine ⟨seen, stored, time, hashRows, favoriteRows, hstored, ?_⟩
  rw [← htables, ← hsettings]

theorem upsert_error {cause : StoreError}
    (h : store.upsert files now path document hashes favorite = (store', .error cause)) :
    store' = store := by
  rw [upsert] at h
  split at h
  · cases h
    rfl
  · exact commit_error h

end

/-- All that a step can make of a catalog. -/
inductive Effect (store : Store) : Step → Store → Prop
  | stored {files : FileTree} {now time : Timestamp} {path : Path} {document : Json.Value}
      {hashes : Option (List (String × String))} {favorite : Option FavoriteInput}
      {seen : Observation} {stored : Tables} {id : FileId} {hashRows : Option (List HashRow)}
      {favoriteRows : Option (List FavoriteRow)}
      (hok : (store.upsert files now path document hashes favorite).2 = .ok id)
      (hstored : Tables.Stored store.tables now path.text seen
        (.ofDocument store.settings.flatten document) stored id time) :
      Effect store (.upsert files now path document hashes favorite)
        { store with tables := { stored with hashes := hashRows, favorites := favoriteRows } }
  | failed {files : FileTree} {now : Timestamp} {path : Path} {document : Json.Value}
      {hashes : Option (List (String × String))} {favorite : Option FavoriteInput}
      {cause : StoreError}
      (herror : (store.upsert files now path document hashes favorite).2 = .error cause) :
      Effect store (.upsert files now path document hashes favorite) store
  | deleted {path : Path} {file : FileRecord} (hfile : store.fileAt? path = some file) :
      Effect store (.delete path) { store with tables := store.tables.eraseFile file.id }
  | absent {path : Path} (hnone : store.fileAt? path = none) : Effect store (.delete path) store
  | toggled {now : Timestamp} {id : FileId} {notes : Option String} {tags : List String}
      {rows : Option (List FavoriteRow)} :
      Effect store (.toggleFavorite now id notes tags)
        { store with tables := { store.tables with favorites := rows } }
  | reopened {settings : Settings} : Effect store (.reopen settings) (store.reopen settings)

theorem effect_run (store : Store) (step : Step) : Effect store step (step.run store) := by
  cases step with
  | upsert files now path document hashes favorite =>
    rw [Step.run]
    cases hresult : store.upsert files now path document hashes favorite with
    | mk next result =>
      have hsnd : (store.upsert files now path document hashes favorite).2 = result := by
        rw [hresult]
      cases result with
      | error cause =>
        rw [upsert_error hresult]
        exact .failed hsnd
      | ok id =>
        obtain ⟨seen, stored, time, hashRows, favoriteRows, hstored, rfl⟩ := upsert_stored hresult
        exact .stored hsnd hstored
  | delete path =>
    rw [Step.run, delete]
    split
    · rename_i file hfile
      exact .deleted hfile
    · rename_i hnone
      exact .absent hnone
  | toggleFavorite now id notes tags =>
    rw [Step.run, toggleFavorite]
    cases hchange : store.tables.toggleFavorite id ⟨notes, tags⟩ now with
    | error fault => exact .toggled
    | ok done =>
      obtain ⟨tables, on⟩ := done
      obtain ⟨rows, rfl⟩ := Tables.toggleFavorite_eq hchange
      exact .toggled
  | reopen settings => exact .reopened

/-! ### What always holds -/

theorem consistent_step {store : Store} (h : store.tables.Consistent) (step : Step) :
    (step.run store).tables.Consistent := by
  cases step with
  | upsert files now path document hashes favorite =>
    rw [Step.run]
    cases hresult : store.upsert files now path document hashes favorite with
    | mk next result =>
      cases result with
      | error cause => exact upsert_error hresult ▸ h
      | ok id =>
        obtain ⟨seen, -, hok, -⟩ := upsert_ok hresult
        exact (h.upsert hok).1
  | delete path =>
    rw [Step.run, delete]
    split
    · exact h.eraseFile _
    · exact h
  | toggleFavorite now id notes tags =>
    exact commit_keeps h fun _ _ hchange => h.toggleFavorite hchange
  | reopen settings => exact h.complete

theorem consistent_afterSteps {store : Store} (h : store.tables.Consistent) (steps : List Step) :
    (store.afterSteps steps).tables.Consistent :=
  afterSteps_keeps (p := fun store => store.tables.Consistent) h
    (fun _ step h => consistent_step h step) steps

theorem consistent_intrusion {store : Store} (h : store.tables.Consistent) (intrusion : Intrusion) :
    (intrusion.run store).tables.Consistent := by
  cases intrusion with
  | addEntry entry =>
    refine commit_keeps h fun tables _ hchange => ?_
    split at hchange
    · cases hchange
    · rename_i kind hkind
      obtain ⟨appended, happend, hchange⟩ := Tables.bind_eq_ok_iff.mp hchange
      obtain ⟨entries, hentries, rfl⟩ := Tables.appendEntry_ok happend
      split at hchange
      · cases hchange
      · rename_i hknown
        rw [Bool.not_eq_true, Tables.file?_isNone_eq_false_iff] at hknown
        cases hchange
        refine h.appendEntries hentries (fun other hother => ?_) (Nat.le_succ _)
          (List.pairwise_singleton _ _) (fun other hother => ?_)
        · rw [List.mem_singleton.mp hother]
          exact hknown
        · rw [List.mem_singleton.mp hother]
          exact ⟨Nat.le_refl _, Nat.lt_succ_self _⟩
  | alterLedger =>
    refine commit_keeps h fun tables _ hchange => ?_
    obtain ⟨entries, -, hchange⟩ := Tables.bind_eq_ok_iff.mp hchange
    split at hchange
    · cases hchange
      exact h
    · cases hchange
  | closeLedger =>
    refine commit_keeps h fun tables _ hchange => ?_
    obtain ⟨entries, -, hchange⟩ := Tables.bind_eq_ok_iff.mp hchange
    cases hchange
    exact { h with }
  | setTagsText id tags =>
    refine commit_keeps h fun tables _ hchange => ?_
    obtain ⟨rows, hneed, hchange⟩ := Tables.bind_eq_ok_iff.mp hchange
    cases hchange
    refine h.mapFavorites (Tables.need_eq_ok_iff.mp hneed) fun row => ?_
    split <;> rfl
  | dropTable table =>
    refine commit_keeps h fun tables _ hchange => ?_
    cases table with
    | fields =>
      obtain ⟨rows, -, hchange⟩ := Tables.map_eq_ok_iff.mp hchange
      cases hchange
      exact h.withFields none (by simp) .nil
    | ledger =>
      obtain ⟨rows, -, hchange⟩ := Tables.map_eq_ok_iff.mp hchange
      cases hchange
      exact h.withLedger (by simp) (.nil _)
    | hashes =>
      obtain ⟨rows, -, hchange⟩ := Tables.map_eq_ok_iff.mp hchange
      cases hchange
      exact h.withHashes (by simp) .nil
    | favorites =>
      obtain ⟨rows, -, hchange⟩ := Tables.map_eq_ok_iff.mp hchange
      cases hchange
      exact h.withFavorites (by simp) .nil

/-- The tables of every catalog that can be reached are in order. -/
theorem Reachable.consistent {store : Store} (h : store.Reachable) : store.tables.Consistent := by
  induction h with
  | opened settings => exact Tables.consistent_empty.complete
  | operation operation _ ih =>
    rw [operation.run_eq_afterSteps]
    exact consistent_afterSteps ih _
  | intrusion intrusion _ ih => exact consistent_intrusion ih intrusion

end Store

end Catalog
