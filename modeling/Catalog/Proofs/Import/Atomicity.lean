import Catalog.Proofs.Import.Rescan
import Catalog.Proofs.Store.Deposits
import Catalog.Proofs.Store.Transaction

/-! Nothing is done by halves. What fails leaves everything as it was, so that a run, and with it a scan,
comes to what those of its steps make that succeed. -/

namespace Catalog

open Catalog.Files Catalog.Import Catalog.Order

/-! ### Steps that succeed -/

def Step.fails (store : Store) : Step → Bool
  | upsert files now path document hashes favorite =>
    !(store.upsert files now path document hashes favorite).2.isOk
  | toggleFavorite now id notes tags => !(store.toggleFavorite now id notes tags).2.isOk
  | delete _ => false
  | reopen _ => false

namespace Store

/-- The steps of a run that succeed. -/
def succeeding (store : Store) : List Step → List Step
  | [] => []
  | step :: rest =>
    if step.fails store then store.succeeding rest else step :: (step.run store).succeeding rest

variable {store : Store} {step : Step} {steps : List Step}

theorem commit_of_not_isOk {α : Type} {change : Except Fault (Tables × α)}
    (h : (store.commit change).2.isOk = false) : (store.commit change).1 = store := by
  cases change with
  | error fault => rfl
  | ok done => cases h

theorem run_of_fails (h : step.fails store = true) : step.run store = store := by
  cases step with
  | upsert files now path document hashes favorite =>
    rw [Step.fails, Bool.not_eq_true'] at h
    rw [Step.run]
    unfold upsert at h ⊢
    split at h
    · rfl
    · exact commit_of_not_isOk h
  | toggleFavorite now id notes tags =>
    rw [Step.fails, Bool.not_eq_true'] at h
    exact commit_of_not_isOk h
  | delete path => cases h
  | reopen settings => cases h

theorem afterSteps_succeeding (store : Store) (steps : List Step) :
    store.afterSteps (store.succeeding steps) = store.afterSteps steps := by
  induction steps generalizing store with
  | nil => rfl
  | cons step rest ih =>
    rw [succeeding, afterSteps_cons]
    split
    · rename_i hfails
      rw [ih, run_of_fails hfails]
    · rw [afterSteps_cons, ih]

theorem succeeding_sublist (store : Store) (steps : List Step) :
    (store.succeeding steps).Sublist steps := by
  induction steps generalizing store with
  | nil => exact .slnil
  | cons step rest ih =>
    rw [succeeding]
    split
    · exact (ih store).cons step
    · exact (ih _).cons_cons step

theorem succeeding_succeeding (store : Store) (steps : List Step) :
    store.succeeding (store.succeeding steps) = store.succeeding steps := by
  induction steps generalizing store with
  | nil => rfl
  | cons step rest ih =>
    rw [succeeding]
    split
    · exact ih store
    · rename_i hsucceeds
      rw [succeeding, if_neg hsucceeds, ih]

theorem mem_succeeding (h : step ∈ store.succeeding steps) :
    step ∈ steps ∧ ∃ before, step.fails before = false := by
  induction steps generalizing store with
  | nil => cases h
  | cons first rest ih =>
    rw [succeeding] at h
    split at h
    · exact ⟨List.mem_cons_of_mem _ (ih h).1, (ih h).2⟩
    · rename_i hsucceeds
      rcases List.mem_cons.mp h with rfl | h
      · exact ⟨List.mem_cons_self, store, by simpa using hsucceeds⟩
      · exact ⟨List.mem_cons_of_mem _ (ih h).1, (ih h).2⟩

/-! ### Scans -/

variable {files : FileTree}

/-- A scan stores as many files as it has upserts that succeed. -/
theorem stored_takeInAll_eq_length (store : Store) (files : FileTree) (clock : Nat → Timestamp)
    (paths : List Path) :
    (takeInAll store files clock paths).2.stored =
      (store.succeeding (intake files clock paths)).length := by
  induction paths generalizing store clock with
  | nil => rfl
  | cons path rest ih =>
    rw [takeInAll_cons, intake]
    dsimp only [ScanReport.count]
    rw [ih, takeIn]
    cases Job.ofPath files path with
    | error cause => rfl
    | ok job =>
      dsimp only [write]
      rw [succeeding, Step.fails, Step.run]
      cases hresult : store.upsert files (clock 0) job.path job.document job.hashes none with
      | mk next result =>
        cases result with
        | error cause =>
          rw [upsert_error hresult]
          rfl
        | ok id => rfl

/-! ### Atomicity -/

variable {now : Timestamp} {path : Path} {document : Json.Value}
  {hashes : Option (List (String × String))} {favorite : Option FavoriteInput}

theorem upsert_unreadable {cause : FileError} (h : files.read path = .error cause) :
    store.upsert files now path document hashes favorite = (store, .error (.unreadable path cause)) := by
  rcases Observation.ofPath_cases files path with ⟨bytes, modified, hstat, -⟩ | ⟨reason, hreason, hseen⟩
  · rw [FileTree.read, hstat] at h
    cases h
  · cases h.symm.trans hreason
    rw [upsert, hseen]

theorem read_of_not_fails
    (h : (Step.upsert files now path document hashes favorite).fails store = false) :
    ∃ bytes, files.read path = .ok bytes := by
  cases hread : files.read path with
  | ok bytes => exact ⟨bytes, rfl⟩
  | error cause =>
    rw [Step.fails, upsert_unreadable hread] at h
    cases h

theorem read_of_zeroByte (h : 0 ∈ path.bytes) : files.read path = .error .zeroByte := by
  rw [FileTree.read, FileTree.stat, FileTree.resolve, if_pos (List.contains_iff_mem.mpr h)]
  rfl

/-- What an upsert does is what its transaction does. -/
theorem upsert_eq_commit {seen : Observation} (h : Observation.ofPath files path = .ok seen) :
    store.upsert files now path document hashes favorite =
      store.commit
        ((Script.upsert now path.text seen (.ofDocument store.settings.flatten document) hashes
          favorite).run store.tables) := by
  rw [upsert, h, Script.run_upsert]

/-- Nothing that fails leaves anything behind. -/
structure Atomic (store : Store) : Prop where
  failed : ∀ files now path document hashes favorite store' cause,
    store.upsert files now path document hashes favorite = (store', .error cause) → store' = store
  -- So does one of a file that is missing, is none, or cannot be read to its end, and tells why,
  unreadable : ∀ files now path document hashes favorite cause, files.read path = .error cause →
    store.upsert files now path document hashes favorite = (store, .error (.unreadable path cause))
  zeroByte : ∀ files now path document hashes favorite, 0 ∈ path.bytes →
    store.upsert files now path document hashes favorite =
      (store, .error (.unreadable path .zeroByte))
  -- Whichever statement of the transaction fails, for whatever cause, the tables are as before; it
  -- shows only in one that has come to its end, which is the upsert.
  transaction : ∀ files now path document hashes favorite seen session,
    Observation.ofPath files path = .ok seen →
      Session.Run (.start store.tables (Script.upsert now path.text seen
        (.ofDocument store.settings.flatten document) hashes favorite)) session →
      session.lasting = store.tables ∧ session.result? = none ∨
        ∃ tables id, session = .closed tables (some id) ∧
          store.upsert files now path document hashes favorite = ({ store with tables }, .ok id)
  completed : ∀ files now path document hashes favorite seen store' id,
    Observation.ofPath files path = .ok seen →
      store.upsert files now path document hashes favorite = (store', .ok id) →
        Session.Run (.start store.tables (Script.upsert now path.text seen
          (.ofDocument store.settings.flatten document) hashes favorite))
          (.closed store'.tables (some id))
  unknown : ∀ now id notes tags, store.file? id = none →
    store.toggleFavorite now id notes tags = (store, .ok false)
  noDirectory : ∀ files clock root workers after result, files.isDirectory root = false →
    Scans store files clock root workers after result →
      after = store ∧ result = .error (.notDirectory root)
  -- A scan comes to what those of its upserts make that succeed, and these succeed without the others.
  -- They are of files that can be read and from which something is learned.
  scanned : ∀ files clock root workers after report,
    Scans store files clock root workers after (.ok report) →
      ∃ (order : List Path) (upserts : List Step), order.Perm (sources files root) ∧
        upserts = store.succeeding (intake files clock order) ∧
        upserts.Sublist (intake files clock order) ∧ store.succeeding upserts = upserts ∧
        after = store.afterSteps upserts ∧ report.stored = upserts.length ∧
        ∀ step ∈ upserts, ∃ now, ∃ path ∈ sources files root, ∃ job bytes,
          step = .upsert files now path job.document job.hashes none ∧
            Job.ofPath files path = .ok job ∧ files.read path = .ok bytes
  -- Taking in a file that cannot be read changes nothing,
  unreadableSource : ∀ files now path cause, files.read path = .error cause →
    takeIn store files now path = (store, false)
  -- nor does it if the sidecar cannot be read or says nothing.
  mutedSidecar : ∀ files now path content modified,
    files.stat (sidecarOf path) = .ok (.file content modified) →
      (∀ bytes, content.read = .ok bytes → (Text.ofBytes? bytes).bind Json.Value.read? = none) →
        takeIn store files now path = (store, false)
  -- A file that cannot be taken in leaves no trace, and none is left for it by another that looks like it
  -- if there is no such file.
  traceless : ∀ files clock root workers after result path now,
    Scans store files clock root workers after result → Unmistakable path (sources files root) →
      (takeIn store files now path).2 = false →
        after.tables.account? path.text = store.tables.account? path.text

end Store

namespace Import

variable {store : Store} {files : FileTree} {clock : Nat → Timestamp} {paths : List Path}
  {path : Path}

theorem takeIn_of_unreadable {cause : FileError} (h : files.read path = .error cause)
    (now : Timestamp) : takeIn store files now path = (store, false) := by
  rw [takeIn]
  cases hjob : Job.ofPath files path with
  | error cause => rfl
  | ok job => rw [write, Job.path_ofPath hjob, Store.upsert_unreadable h]

theorem said_of_muted {content : Content}
    (h : ∀ bytes, content.read = .ok bytes → (Text.ofBytes? bytes).bind Json.Value.read? = none)
    (sidecar : Path) : ∃ cause, said sidecar content = .error cause := by
  rw [said]
  cases hread : content.read with
  | error cause => exact ⟨_, rfl⟩
  | ok bytes =>
    have hmuted := h bytes hread
    dsimp only
    cases htext : Text.ofBytes? bytes with
    | none => exact ⟨_, rfl⟩
    | some text =>
      rw [htext, Option.bind_some] at hmuted
      dsimp only
      rw [hmuted]
      exact ⟨_, rfl⟩

theorem takeIn_of_muted {content : Content} {modified : Int}
    (hstat : files.stat (sidecarOf path) = .ok (.file content modified))
    (h : ∀ bytes, content.read = .ok bytes → (Text.ofBytes? bytes).bind Json.Value.read? = none)
    (now : Timestamp) : takeIn store files now path = (store, false) := by
  obtain ⟨cause, hcause⟩ := said_of_muted h (sidecarOf path)
  rw [takeIn]
  cases hjob : Job.ofPath files path with
  | error cause => rfl
  | ok job =>
    obtain ⟨-, -, -, sidecar, -, -, hsidecar, -⟩ := Job.ofPath_eq_ok_iff.mp hjob
    rw [readSidecar, hstat] at hsidecar
    cases hcause.symm.trans hsidecar

/-- A file that cannot be taken in cannot be after others were. -/
theorem not_accepts_takeIn {first : Path} (h : store.tables.Consistent)
    (hapart : path.text = first.text → path = first) (now : Timestamp)
    (hno : store.accepts files path = false) :
    (takeIn store files now first).1.accepts files path = false := by
  by_cases heq : path.text = first.text
  · rw [← hapart heq, Store.accepts_takeIn_self h, hno, Bool.false_and]
  · rw [Store.accepts_takeIn_of_ne h heq, hno]

theorem account?_takeInAll_of_not_accepts (h : store.tables.Consistent)
    (hapart : Unmistakable path paths) (hno : store.accepts files path = false) :
    (takeInAll store files clock paths).1.tables.account? path.text =
      store.tables.account? path.text := by
  induction paths generalizing store clock with
  | nil => rfl
  | cons first rest ih =>
    obtain ⟨hfirst, hrest⟩ := List.forall_mem_cons.mp hapart
    rw [takeInAll_cons]
    refine (ih (Store.consistent_takeIn h) hrest (not_accepts_takeIn h hfirst _ hno)).trans ?_
    by_cases heq : path.text = first.text
    · rw [← hfirst heq, Store.takeIn_of_not_accepts h _ hno]
    · exact Store.account?_takeIn_of_ne h heq

end Import

namespace Store

/-- In every catalog that can be reached, what fails leaves no trace: an upsert, at whichever of its
statements, a toggle, a scan that does not start, and in a scan the files that cannot be taken in. -/
theorem Reachable.atomic {store : Store} (h : store.Reachable) : store.Atomic where
  failed files now path document hashes favorite store' cause hfailed := upsert_error hfailed
  unreadable files now path document hashes favorite cause hread := upsert_unreadable hread
  zeroByte files now path document hashes favorite hzero := upsert_unreadable (read_of_zeroByte hzero)
  transaction files now path document hashes favorite seen session hseen hrun := by
    rcases Session.outcome hrun with hopen | ⟨tables, id, hclosed, hdone⟩
    · exact .inl hopen
    · refine .inr ⟨tables, id, hclosed, ?_⟩
      rw [upsert_eq_commit hseen, hdone]
      rfl
  completed files now path document hashes favorite seen store' id hseen hdone := by
    rw [upsert_eq_commit hseen] at hdone
    obtain ⟨tables, hrun, rfl⟩ := commit_ok hdone
    exact Session.run_closed hrun
  unknown now id notes tags hnone := by
    rw [toggleFavorite, Tables.toggleFavorite_unknown hnone]
    rfl
  noDirectory files clock root workers after result hroot hscan := by
    rcases hscan.exists_order with ⟨-, hafter, hresult⟩ | ⟨hdirectory, -⟩
    · exact ⟨hafter, hresult⟩
    · rw [hroot] at hdirectory
      cases hdirectory
  scanned files clock root workers after report hscan := by
    rcases hscan.exists_order with ⟨-, -, hresult⟩ | ⟨-, order, counted, hperm, htaken, hresult⟩
    · cases hresult
    · refine ⟨order, _, hperm, rfl, succeeding_sublist _ _, succeeding_succeeding _ _, ?_, ?_, ?_⟩
      · rw [afterSteps_succeeding, ← takeInAll_fst, htaken]
      · rw [← stored_takeInAll_eq_length, htaken, Except.ok.inj hresult]
      · intro step hstep
        obtain ⟨hmem, before, hsucceeds⟩ := mem_succeeding hstep
        obtain ⟨now, path, hpath, job, hjob, rfl⟩ := exists_job_of_mem_intake hmem
        obtain ⟨bytes, hread⟩ := read_of_not_fails hsucceeds
        rw [Job.path_ofPath hjob] at hread ⊢
        exact ⟨now, path, hperm.mem_iff.mp hpath, job, bytes, rfl, hjob, hread⟩
  unreadableSource files now path cause hread := takeIn_of_unreadable hread now
  mutedSidecar files now path content modified hstat hmuted := takeIn_of_muted hstat hmuted now
  traceless files clock root workers after result path now hscan hapart hno := by
    rcases hscan.exists_order with ⟨-, rfl, -⟩ | ⟨-, order, counted, hperm, htaken, -⟩
    · rfl
    · rw [takeIn_snd h.consistent] at hno
      have hother : Unmistakable path order := fun other hmem => hapart other (hperm.mem_iff.mp hmem)
      have hsame : (takeInAll store files clock order).1.tables.account? path.text =
          store.tables.account? path.text := account?_takeInAll_of_not_accepts h.consistent hother hno
      rw [htaken] at hsame
      exact hsame

set_option maxRecDepth 2000 in
/-- The ledger takes no entries, so a change of a file fails after its fields were replaced. A scan
stores what is new beside it, but for a file with a malformed sidecar and one that cannot be read. -/
theorem atomic_when_ledger_closed :
    let files : FileTree :=
      ⟨[(["r"], .directory), (["r", "a"], .file (.sound [120]) 0), (["r", "b"], .file (.sound [121]) 0),
        (["r", "b.json"], .file (.sound [123]) 0), (["r", "c"], .file (.sound [122]) 0),
        (["r", "d"], .file (.broken [122] 1 .faulty) 0)]⟩
    let first : Json.Value := .object [("c", .object [("k", .string "1")])]
    let second : Json.Value := .object [("c", .object [("k", .string "2")])]
    let store := Intrusion.closeLedger.run
      ((ofTables {} {}).after [.single (.upsert files "5" "r/a" first none none)])
    let failed := store.upsert files "6" "r/a" second (some [("dhash", "0f")]) (some ⟨none, []⟩)
    (store.Reachable ∧ failed = (failed.1, .error (.storage .ledgerClosed))) ∧
      failed.1 = store ∧ store.fields 1 = [(⟨"c", "k"⟩, "1")] ∧
      takeIn store files "7" "r/d" = (store, false) ∧
      ∃ after, Scans store files (fun n => toString n) "r" 2 after (.ok ⟨4, 1, 3⟩) ∧
        after.tables.account? "r/a" = store.tables.account? "r/a" ∧
        after.tables.account? "r/b" = none := by
  intro files first second store failed
  have hreachable : store.Reachable := .intrusion .closeLedger ((Reachable.opened {}).after _)
  have hatomic := hreachable.atomic
  have hcause : failed.2 = .error (.storage .ledgerClosed) := by decide +kernel
  have hfailed : failed = (failed.1, .error (.storage .ledgerClosed)) := by rw [← hcause]
  refine ⟨⟨hreachable, hfailed⟩, hatomic.failed files "6" "r/a" second _ _ _ _ hfailed,
    by decide +kernel, hatomic.unreadableSource files "7" "r/d" .faulty (by decide +kernel), ?_⟩
  obtain ⟨after, result, hscan⟩ := exists_scans store files (fun n => toString n) "r" 2
  have hapart : ShownApart (sources files "r") :=
    shownApart_of_texts (by decide +kernel) (by decide +kernel)
  have hresult : result = .ok ⟨4, 1, 3⟩ := by
    rw [show result = _ from (hscan.agrees hreachable.consistent fun n => toString n).result hapart]
    decide +kernel
  subst hresult
  have htrace : ∀ path : String, ↑path ∈ sources files "r" → (takeIn store files "7" path).2 = false →
      after.tables.account? path = store.tables.account? path := by
    intro path hpath hno
    have hsame := hatomic.traceless _ _ _ _ _ _ path "7" hscan (hapart path hpath) hno
    rwa [Text.RawText.text_ofText] at hsame
  refine ⟨after, hscan, htrace _ (by decide +kernel) (by decide +kernel), ?_⟩
  rw [htrace _ (by decide +kernel) (by decide +kernel)]
  decide +kernel

end Store

end Catalog
