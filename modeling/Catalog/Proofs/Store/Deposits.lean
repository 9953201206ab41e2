import Catalog.Proofs.Store.Account

/-! Deposits. Every successful upsert is one, whether it changed anything or not, and what a catalog holds
of a file goes back to the deposits for its path. -/

namespace Catalog

open Catalog.Files

/-- A successful upsert: the path as it is shown, the bytes found there, the reading of the clock, the file
that was stored, and whether the path was new. -/
structure Deposit where
  path : String
  bytes : List UInt8
  now : Timestamp
  id : FileId
  isNew : Bool
deriving DecidableEq, Repr

def Step.deposit? (store : Store) : Step → Option Deposit
  | upsert files now path document hashes favorite =>
    match files.read path, (store.upsert files now path document hashes favorite).2 with
    | .ok bytes, .ok id => some ⟨path.text, bytes, now, id, (store.fileAt? path).isNone⟩
    | _, _ => none
  | _ => none

namespace Store

/-- The deposits of steps that are done one after the other, the newest first. -/
def depositsBy (store : Store) : List Step → List Deposit
  | [] => []
  | step :: rest => (step.run store).depositsBy rest ++ (step.deposit? store).toList

/-- The catalog is one that a new one can become if others do to it only what is allowed, and these are
the deposits on the way, the newest first. -/
inductive Logged (allowed : Intrusion → Prop) : Store → List Deposit → Prop
  | opened (settings : Settings) : Logged allowed (ofTables settings {}) []
  | step {store : Store} {log : List Deposit} (step : Step) (h : Logged allowed store log) :
      Logged allowed (step.run store) ((step.deposit? store).toList ++ log)
  | intrusion {store : Store} {log : List Deposit} (intrusion : Intrusion)
      (hallowed : allowed intrusion) (h : Logged allowed store log) :
      Logged allowed (intrusion.run store) log

variable {allowed : Intrusion → Prop} {store store' : Store} {log : List Deposit}

theorem Logged.reachable (h : store.Logged allowed log) : store.Reachable := by
  induction h with
  | opened settings => exact .opened settings
  | step step _ ih => exact ih.operation (.single step)
  | intrusion intrusion _ _ ih => exact ih.intrusion intrusion

theorem Logged.consistent (h : store.Logged allowed log) : store.tables.Consistent :=
  h.reachable.consistent

theorem Logged.afterSteps (h : store.Logged allowed log) (steps : List Step) :
    (store.afterSteps steps).Logged allowed (store.depositsBy steps ++ log) := by
  induction steps generalizing store log with
  | nil => exact h
  | cons step rest ih =>
    rw [depositsBy, List.append_assoc]
    exact ih (h.step step)

theorem Reachable.exists_logged (h : store.Reachable) : ∃ log, store.Logged (fun _ => True) log := by
  induction h with
  | opened settings => exact ⟨[], .opened settings⟩
  | operation operation _ ih =>
    obtain ⟨log, hlog⟩ := ih
    have hlater := hlog.afterSteps operation.steps
    rw [← operation.run_eq_afterSteps] at hlater
    exact ⟨_, hlater⟩
  | intrusion intrusion _ ih =>
    obtain ⟨log, hlog⟩ := ih
    exact ⟨log, hlog.intrusion intrusion trivial⟩

/-! ### What a step deposits -/

section

variable {files : FileTree} {now : Timestamp} {path : Path} {document : Json.Value}
  {hashes : Option (List (String × String))} {favorite : Option FavoriteInput} {id : FileId}

theorem stat_of_ofPath {seen : Observation} (h : Observation.ofPath files path = .ok seen) :
    ∃ bytes modified, files.stat path = .ok (.file (.sound bytes) modified) ∧
      seen = .ofFile bytes modified := by
  rcases Observation.ofPath_cases files path with ⟨bytes, modified, hstat, hfound⟩ | ⟨_, -, hfound⟩
  · exact ⟨bytes, modified, hstat, Except.ok.inj (h.symm.trans hfound)⟩
  · cases h.symm.trans hfound

theorem deposit?_upsert {bytes : List UInt8} {modified : Int}
    (hstat : files.stat path = .ok (.file (.sound bytes) modified))
    (hok : (store.upsert files now path document hashes favorite).2 = .ok id) :
    (Step.upsert files now path document hashes favorite).deposit? store =
      some ⟨path.text, bytes, now, id, (store.fileAt? path).isNone⟩ := by
  rw [Step.deposit?, FileTree.read, hstat, hok]
  rfl

theorem deposit?_upsert_of_error {cause : StoreError}
    (h : (store.upsert files now path document hashes favorite).2 = .error cause) :
    (Step.upsert files now path document hashes favorite).deposit? store = none := by
  rw [Step.deposit?, h]
  cases files.read path <;> rfl

end

/-- What a step makes of files and entries: it adds none if it deposits nothing, and else it stores a
file. -/
inductive Yields (store : Store) : Option Deposit → Store → Prop
  | nothing {store' : Store} (hfiles : ∀ file ∈ store'.tables.files, file ∈ store.tables.files)
      (hledger : ∀ entry ∈ store'.tables.ledger.getD [], entry ∈ store.tables.ledger.getD []) :
      Yields store none store'
  | stored {now time : Timestamp} {path : Path} {bytes : List UInt8} {modified : Int}
      {extracted : Extracted} {stored : Tables} {id : FileId} {hashRows : Option (List HashRow)}
      {favoriteRows : Option (List FavoriteRow)}
      (hstored : Tables.Stored store.tables now path.text (.ofFile bytes modified) extracted stored id
        time) :
      Yields store (some ⟨path.text, bytes, now, id, (store.fileAt? path).isNone⟩)
        { store with tables := { stored with hashes := hashRows, favorites := favoriteRows } }

theorem yields_run (store : Store) (step : Step) :
    store.Yields (step.deposit? store) (step.run store) := by
  cases step with
  | upsert files now path document hashes favorite =>
    rw [Step.run]
    cases hresult : store.upsert files now path document hashes favorite with
    | mk next result =>
      cases result with
      | error cause =>
        rw [upsert_error hresult, deposit?_upsert_of_error (by rw [hresult])]
        exact .nothing (fun _ h => h) fun _ h => h
      | ok id =>
        obtain ⟨seen, hseen, hupsert, hsettings⟩ := upsert_ok hresult
        obtain ⟨bytes, modified, hstat, rfl⟩ := stat_of_ofPath hseen
        obtain ⟨stored, time, hashRows, favoriteRows, hstored, htables⟩ :=
          Tables.upsert_stored hupsert
        have hnext : next =
            { store with
              tables := { stored with hashes := hashRows, favorites := favoriteRows } } := by
          rw [← htables, ← hsettings]
        rw [deposit?_upsert hstat (by rw [hresult]), hnext]
        exact .stored hstored
  | delete path =>
    rw [Step.run, delete]
    split
    · refine .nothing (fun file hfile => List.mem_of_mem_filter hfile) fun entry hentry => ?_
      rw [Tables.eraseFile, Tables.getD_map_filter] at hentry
      exact List.mem_of_mem_filter hentry
    · exact .nothing (fun _ h => h) fun _ h => h
  | toggleFavorite now id notes tags =>
    rw [Step.run, toggleFavorite]
    cases hchange : store.tables.toggleFavorite id ⟨notes, tags⟩ now with
    | error fault => exact .nothing (fun _ h => h) fun _ h => h
    | ok done =>
      obtain ⟨tables, on⟩ := done
      obtain ⟨rows, rfl⟩ := Tables.toggleFavorite_eq hchange
      exact .nothing (fun _ h => h) fun _ h => h
  | reopen settings => exact .nothing (fun _ h => h) fun _ h => h

end Store

/-! ### Records and times -/

namespace Tables

variable {tables tables' : Tables} {now time : Timestamp} {path : String} {seen : Observation}
  {extracted : Extracted} {id : FileId}

theorem foldl_later_eq {entries : List LedgerEntry}
    (h : ∀ entry ∈ entries, ¬now < entry.recorded) :
    entries.foldl (fun time entry => later time entry.recorded) now = now := by
  induction entries with
  | nil => rfl
  | cons entry rest ih =>
    rw [List.foldl_cons, later, if_neg (h entry List.mem_cons_self)]
    exact ih fun other hother => h other (List.mem_cons_of_mem _ hother)

theorem ledgerTime_eq (hle : ∀ entry ∈ tables.ledger.getD [], ¬now < entry.recorded)
    (h : tables.ledgerTime id now = .ok time) : time = now := by
  obtain ⟨entries, hentries, htime⟩ := bind_eq_ok_iff.mp h
  rw [need_eq_ok_iff.mp hentries, Option.getD_some] at hle
  cases htime
  exact foldl_later_eq fun entry hentry => hle entry (List.mem_of_mem_filter hentry)

/-- Where the ledger has no later entry, a file is stored under the time of the clock. -/
theorem Stored.time_eq (h : Stored tables now path seen extracted tables' id time)
    (hle : ∀ entry ∈ tables.ledger.getD [], ¬now < entry.recorded) : time = now := by
  cases h with
  | inserted => rfl
  | replaced _ _ _ htime => exact ledgerTime_eq hle htime
  | kept _ _ htime => exact ledgerTime_eq hle htime

/-- What is true of the times of all entries, and of the one under which a file is stored, stays so. -/
theorem Stored.recorded_of (h : Stored tables now path seen extracted tables' id time)
    (p : Timestamp → Prop)
    (hentries : ∀ entry ∈ tables.ledger.getD [], p entry.recorded) (htime : p time) :
    ∀ entry ∈ tables'.ledger.getD [], p entry.recorded := by
  intro entry hentry
  rw [h.ledger_eq] at hentry
  rcases List.mem_append.mp hentry with hold | hnew
  · exact hentries entry hold
  · rw [(h.mem_recordedBy entry hnew).2]
    exact htime

theorem Stored.lastUpdated_eq (h : Stored tables now path seen extracted tables' id time)
    (hconsistent : tables.Consistent) {file : FileRecord} (hfile : tables'.file? id = some file) :
    file.lastUpdated = time := by
  cases hknown : tables.fileAt? path with
  | none =>
    rw [h.file?_of_new hconsistent hknown] at hfile
    cases hfile
    rfl
  | some old =>
    rw [h.file?_of_fileAt? hconsistent hknown] at hfile
    cases hfile
    rw [Account.seenAgain]
    split <;> rfl

/-- A file stored after an upsert is one stored before for another path, or the one for its path. -/
theorem Stored.mem_files_cases (h : Stored tables now path seen extracted tables' id time)
    (hconsistent : tables.Consistent) {file : FileRecord} (hfile : file ∈ tables'.files) :
    file ∈ tables.files ∧ file.path ≠ path ∨ file.path = path ∧ tables'.file? id = some file := by
  have hafter := (h.consistent hconsistent).1
  have hheld : tables'.file? file.id = some file := hafter.file?_eq_some_iff.mpr ⟨hfile, rfl⟩
  by_cases hid : file.id = id
  · right
    rw [← hid]
    refine ⟨?_, hheld⟩
    obtain ⟨other, hother, hpath, hotherId⟩ := h.exists_file
    rw [← hpath, List.inj_on_of_nodup_map hafter.ids hfile hother (hid.trans hotherId.symm)]
  · left
    have hsame : tables'.file? file.id = tables.file? file.id :=
      congrArg Dossier.record (h.dossier_of_ne hid)
    refine ⟨List.mem_of_find?_eq_some (hsame.symm.trans hheld), fun hpath => hid ?_⟩
    obtain ⟨other, hother, hotherPath, rfl⟩ := h.exists_file
    rw [List.inj_on_of_nodup_map hafter.paths hfile hother (hpath.trans hotherPath.symm)]

end Tables

end Catalog
