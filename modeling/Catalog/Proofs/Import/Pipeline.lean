import Mathlib.Logic.Relation
import Catalog.Proofs.Import.Order
import Catalog.Proofs.Import.Sidecars

/-! A scan as it runs: a walker, some workers and a writer at work at the same time, with a bounded
channel between each two of them. Every run comes to an end, and what it leaves is what the files make
that are taken in one after the other, in the order in which they reach the writer. -/

namespace Catalog.Import

open Catalog.Files Catalog.Text Relation

/-- What a worker is at. It is delivering when it has learned what it can and waits for room to hand that
over. -/
inductive Worker where
  | idle
  | inspecting (path : Path)
  | delivering (path : Path) (job : Except JobError Job)

namespace Worker

def held : Worker → List Path
  | idle => []
  | inspecting path => [path]
  | delivering path _ => [path]

-- The steps that are left for the file, the writing included.
def work : Worker → Nat
  | idle => 0
  | inspecting _ => 3
  | delivering _ _ => 2

end Worker

/-- A scan under way: the catalog, what the walker is still to come across and how many entries it could
not reach, the channel to the workers, the workers, the channel to the writer, its report, and the files
that it has dealt with, in order. -/
structure Pipeline where
  store : Store
  ahead : List Visit
  missed : Nat
  paths : List Path
  workers : List Worker
  jobs : List (Path × Except JobError Job)
  report : ScanReport
  written : List Path

def pathRoom : Nat := 1024

def jobRoom : Nat := 256

namespace Pipeline

def start (store : Store) (files : FileTree) (root : Path) (workers : Nat) : Pipeline where
  store := store
  ahead := files.walk root
  missed := 0
  paths := []
  -- There is a worker in any case.
  workers := List.replicate (max workers 1) .idle
  jobs := []
  report := {}
  written := []

/-- What any one of the parties can do next. Each takes the first element of its channel, and waits
where there is none or where there is no room to pass something on. -/
inductive Step (files : FileTree) (clock : Nat → Timestamp) : Pipeline → Pipeline → Prop
  | miss {state : Pipeline} {path : Path} {rest : List Visit}
      (hahead : state.ahead = .unreadable path :: rest) :
      Step files clock state { state with ahead := rest, missed := state.missed + 1 }
  | pass {state : Pipeline} {path : Path} {rest : List Visit}
      (hahead : state.ahead = .file path :: rest) (hsidecar : isSidecar files path = true) :
      Step files clock state { state with ahead := rest }
  | send {state : Pipeline} {path : Path} {rest : List Visit}
      (hahead : state.ahead = .file path :: rest) (hsource : isSidecar files path = false)
      (hroom : state.paths.length < pathRoom) :
      Step files clock state { state with ahead := rest, paths := state.paths ++ [path] }
  | receive {state : Pipeline} {path : Path} {rest : List Path} {before after : List Worker}
      (hpaths : state.paths = path :: rest) (hworker : state.workers = before ++ .idle :: after) :
      Step files clock state
        { state with paths := rest, workers := before ++ .inspecting path :: after }
  | inspect {state : Pipeline} {path : Path} {before after : List Worker}
      (hworker : state.workers = before ++ .inspecting path :: after) :
      Step files clock state
        { state with workers := before ++ .delivering path (Job.ofPath files path) :: after }
  | deliver {state : Pipeline} {path : Path} {job : Except JobError Job} {before after : List Worker}
      (hworker : state.workers = before ++ .delivering path job :: after)
      (hroom : state.jobs.length < jobRoom) :
      Step files clock state
        { state with workers := before ++ .idle :: after, jobs := state.jobs ++ [(path, job)] }
  | write {state : Pipeline} {path : Path} {job : Except JobError Job}
      {rest : List (Path × Except JobError Job)} (hjobs : state.jobs = (path, job) :: rest) :
      Step files clock state
        { state with
          store := (Import.write state.store files (clock state.written.length) job).1
          jobs := rest
          report :=
            state.report.count (Import.write state.store files (clock state.written.length) job).2
          written := state.written ++ [path] }

def Run (files : FileTree) (clock : Nat → Timestamp) : Pipeline → Pipeline → Prop :=
  ReflTransGen (Step files clock)

structure Finished (state : Pipeline) : Prop where
  ahead : state.ahead = []
  paths : state.paths = []
  workers : ∀ worker ∈ state.workers, worker = .idle
  jobs : state.jobs = []

def outcome (state : Pipeline) : ScanReport :=
  { state.report with failed := state.report.failed + state.missed }

/-! ### The end of a run -/

-- At least the number of steps that are left: each takes something off.
def work (state : Pipeline) : Nat :=
  5 * state.ahead.length + 4 * state.paths.length + Order.total (state.workers.map Worker.work) +
    state.jobs.length

variable {files : FileTree} {clock : Nat → Timestamp} {state next last : Pipeline}

theorem Step.work_lt (h : Step files clock state next) : next.work < state.work := by
  cases h with
  | miss hahead => simp only [work, hahead, List.length_cons]; omega
  | pass hahead => simp only [work, hahead, List.length_cons]; omega
  | send hahead =>
    simp only [work, hahead, List.length_cons, List.length_append, List.length_nil]
    omega
  | receive hpaths hworker =>
    simp only [work, hpaths, hworker, List.map_append, List.map_cons, Order.total_append, Order.total,
      List.length_cons, Worker.work]
    omega
  | inspect hworker =>
    simp only [work, hworker, List.map_append, List.map_cons, Order.total_append, Order.total,
      Worker.work]
    omega
  | deliver hworker =>
    simp only [work, hworker, List.map_append, List.map_cons, Order.total_append, Order.total,
      List.length_append, List.length_cons, List.length_nil, Worker.work]
    omega
  | write hjobs => simp only [work, hjobs, List.length_cons]; omega

theorem Step.length_workers (h : Step files clock state next) :
    next.workers.length = state.workers.length := by
  cases h with
  | receive _ hworker => rw [hworker]; simp
  | inspect hworker => rw [hworker]; simp
  | deliver hworker => rw [hworker]; simp
  | _ => rfl

/-- As long as anything is left to do, some party can go on. -/
theorem exists_step (files : FileTree) (clock : Nat → Timestamp) (hworkers : state.workers ≠ [])
    (hnot : ¬state.Finished) :
    ∃ next, Step files clock state next := by
  cases hjobs : state.jobs with
  | cons entry rest =>
    obtain ⟨path, job⟩ := entry
    exact ⟨_, .write hjobs⟩
  | nil =>
    by_cases hidle : ∀ worker ∈ state.workers, worker = .idle
    · -- Nothing is on its way to the writer, so whatever there is can move on.
      cases hpaths : state.paths with
      | cons path rest =>
        obtain ⟨worker, others, hall⟩ := List.exists_cons_of_ne_nil hworkers
        obtain rfl := hidle worker (hall ▸ List.mem_cons_self)
        exact ⟨_, .receive hpaths (show state.workers = [] ++ .idle :: others from hall)⟩
      | nil =>
        cases hahead : state.ahead with
        | nil => exact absurd ⟨hahead, hpaths, hidle, hjobs⟩ hnot
        | cons visit rest =>
          cases visit with
          | unreadable path => exact ⟨_, .miss hahead⟩
          | file path =>
            cases hsidecar : isSidecar files path with
            | true => exact ⟨_, .pass hahead hsidecar⟩
            | false =>
              refine ⟨_, .send hahead hsidecar ?_⟩
              rw [hpaths]
              decide
    · rw [not_forall] at hidle
      obtain ⟨worker, hidle⟩ := hidle
      obtain ⟨hmem, hbusy⟩ := Classical.not_imp.mp hidle
      obtain ⟨before, after, hworker⟩ := List.append_of_mem hmem
      cases worker with
      | idle => exact absurd rfl hbusy
      | inspecting path => exact ⟨_, .inspect hworker⟩
      | delivering path job =>
        refine ⟨_, .deliver hworker ?_⟩
        rw [hjobs]
        decide

theorem exists_finished (files : FileTree) (clock : Nat → Timestamp)
    (hworkers : state.workers ≠ []) :
    ∃ last, Run files clock state last ∧ last.Finished := by
  induction hwork : state.work using Nat.strongRecOn generalizing state with
  | _ work ih =>
    by_cases hdone : state.Finished
    · exact ⟨state, .refl, hdone⟩
    · obtain ⟨next, hstep⟩ := exists_step files clock hworkers hdone
      have hnext : next.workers ≠ [] := by
        rw [← List.length_pos_iff, hstep.length_workers, List.length_pos_iff]
        exact hworkers
      obtain ⟨last, hrun, hlast⟩ := ih next.work (hwork ▸ hstep.work_lt) hnext rfl
      exact ⟨last, .head hstep hrun, hlast⟩

theorem workers_ne_nil {store : Store} {root : Path} {workers : Nat}
    (hrun : Run files clock (start store files root workers) state) : state.workers ≠ [] := by
  have hlength : state.workers.length = max workers 1 := by
    induction hrun with
    | refl => exact List.length_replicate
    | tail _ hstep ih => rw [hstep.length_workers, ih]
  apply List.ne_nil_of_length_pos
  omega

/-- All files that are to be stored, wherever they are by now. -/
def pool (files : FileTree) (state : Pipeline) : List Path :=
  state.written ++ state.jobs.map (·.1) ++ state.workers.flatMap Worker.held ++ state.paths ++
    state.ahead.filterMap (source? files)

theorem Step.pool_perm (h : Step files clock state next) :
    (next.pool files).Perm (state.pool files) := by
  cases h with
  | miss hahead => rw [pool, pool, hahead]; rfl
  | pass hahead hsidecar =>
    rw [pool, pool, hahead, List.filterMap_cons_none (by rw [source?, hsidecar]; rfl)]
  | send hahead hsource =>
    rw [pool, pool, hahead, List.filterMap_cons_some (source?_eq_some_iff.mpr ⟨rfl, hsource⟩)]
    simp
  | receive hpaths hworker =>
    rw [pool, pool, hpaths, hworker, List.perm_iff_count]
    intro other
    simp only [List.count_append, List.flatMap_append, List.flatMap_cons, List.count_cons,
      Worker.held, List.count_nil]
    omega
  | inspect hworker =>
    rw [pool, pool, hworker]
    simp [Worker.held]
  | deliver hworker =>
    rw [pool, pool, hworker, List.perm_iff_count]
    intro other
    simp only [List.count_append, List.flatMap_append, List.flatMap_cons, List.count_cons,
      List.map_append, List.map_cons, List.map_nil, Worker.held, List.count_nil]
    omega
  | write hjobs =>
    rw [pool, pool, hjobs]
    simp

/-- What is true of a scan at any time: its catalog and report are what the files make that have been
written, no file is lost or met twice, and what is on its way was learned from its file. -/
structure Sound (files : FileTree) (clock : Nat → Timestamp) (store : Store) (root : Path)
    (state : Pipeline) : Prop where
  written : takeInAll store files clock state.written = (state.store, state.report)
  pool : (state.pool files).Perm (sources files root)
  missed : state.missed + state.ahead.countP isMiss = unreachable files root
  delivering : ∀ path job, .delivering path job ∈ state.workers → job = Job.ofPath files path
  jobs : ∀ entry ∈ state.jobs, entry.2 = Job.ofPath files entry.1

variable {store : Store} {root : Path} {workers : Nat}

theorem sound_start (files : FileTree) (clock : Nat → Timestamp) (store : Store) (root : Path)
    (workers : Nat) : Sound files clock store root (start store files root workers) where
  written := rfl
  pool := by
    have hidle : (List.replicate (max workers 1) Worker.idle).flatMap Worker.held = [] := by
      rw [List.flatMap_eq_nil_iff]
      intro worker hworker
      rw [List.eq_of_mem_replicate hworker]
      rfl
    rw [Pipeline.pool, start, hidle]
    exact .refl _
  missed := Nat.zero_add _
  delivering path job h := by cases List.eq_of_mem_replicate h
  jobs entry h := by cases h

theorem Sound.step (h : Sound files clock store root state) (hstep : Step files clock state next) :
    Sound files clock store root next := by
  have hpool := hstep.pool_perm.trans h.pool
  -- A worker that is delivering afterwards was so before, or has just inspected the file.
  have hdelivering : ∀ {before after : List Worker} {old new : Worker},
      state.workers = before ++ old :: after →
      (∀ path job, new = .delivering path job → job = Job.ofPath files path) →
      ∀ path job, .delivering path job ∈ before ++ new :: after → job = Job.ofPath files path := by
    intro before after old new hworker hnew path job hmem
    rcases List.mem_append.mp hmem with hbefore | hmem
    · exact h.delivering path job (hworker ▸ List.mem_append_left _ hbefore)
    · rcases List.mem_cons.mp hmem with heq | hafter
      · exact hnew path job heq.symm
      · refine h.delivering path job (hworker ▸ List.mem_append_right _ ?_)
        exact List.mem_cons_of_mem _ hafter
  cases hstep with
  | miss hahead =>
    refine ⟨h.written, hpool, ?_, h.delivering, h.jobs⟩
    have hmissed := h.missed
    rw [hahead, List.countP_cons_of_pos rfl] at hmissed
    dsimp only
    omega
  | pass hahead =>
    refine ⟨h.written, hpool, ?_, h.delivering, h.jobs⟩
    have hmissed := h.missed
    rw [hahead, List.countP_cons_of_neg (by simp [isMiss])] at hmissed
    exact hmissed
  | send hahead =>
    refine ⟨h.written, hpool, ?_, h.delivering, h.jobs⟩
    have hmissed := h.missed
    rw [hahead, List.countP_cons_of_neg (by simp [isMiss])] at hmissed
    exact hmissed
  | receive _ hworker =>
    refine ⟨h.written, hpool, h.missed, hdelivering hworker ?_, h.jobs⟩
    intro path job heq
    cases heq
  | inspect hworker =>
    refine ⟨h.written, hpool, h.missed, hdelivering hworker ?_, h.jobs⟩
    intro path job heq
    cases heq
    rfl
  | @deliver path job before after hworker =>
    refine ⟨h.written, hpool, h.missed, hdelivering hworker ?_, ?_⟩
    · intro path job heq
      cases heq
    · intro entry hentry
      rcases List.mem_append.mp hentry with hold | hnew
      · exact h.jobs entry hold
      · rw [List.mem_singleton.mp hnew]
        refine h.delivering path job (hworker ▸ ?_)
        exact List.mem_append_right _ List.mem_cons_self
  | @write path job rest hjobs =>
    have hjob : job = Job.ofPath files path := h.jobs (path, job) (hjobs ▸ List.mem_cons_self)
    refine ⟨?_, hpool, h.missed, h.delivering, fun entry hentry => h.jobs entry ?_⟩
    · dsimp only
      rw [takeInAll_snoc, h.written, takeIn, hjob]
    · rw [hjobs]
      exact List.mem_cons_of_mem _ hentry

theorem Sound.run (h : Sound files clock store root state) (hrun : Run files clock state last) :
    Sound files clock store root last := by
  induction hrun with
  | refl => exact h
  | tail _ hstep ih => exact ih.step hstep

/-- At the end every file has been written exactly once. -/
theorem Sound.written_perm (h : Sound files clock store root last) (hdone : last.Finished) :
    last.written.Perm (sources files root) ∧ last.missed = unreachable files root := by
  have hidle : last.workers.flatMap Worker.held = [] := by
    rw [List.flatMap_eq_nil_iff]
    intro worker hworker
    rw [hdone.workers worker hworker]
    rfl
  have hpool := h.pool
  have hmissed := h.missed
  rw [Pipeline.pool, hidle, hdone.ahead, hdone.paths, hdone.jobs] at hpool
  rw [hdone.ahead] at hmissed
  exact ⟨by simpa using hpool, hmissed⟩

end Pipeline

/-! ### The outcome -/

/-- What a scan of a directory with some workers may come to: the catalog then, and the result. -/
inductive Scans (store : Store) (files : FileTree) (clock : Nat → Timestamp) (root : Path)
    (workers : Nat) : Store → Except ScanError ScanReport → Prop
  | refused (hroot : files.isDirectory root = false) :
      Scans store files clock root workers store (.error (.notDirectory root))
  | finished {last : Pipeline} (hroot : files.isDirectory root = true)
      (hrun : Pipeline.Run files clock (Pipeline.start store files root workers) last)
      (hdone : last.Finished) :
      Scans store files clock root workers last.store (.ok last.outcome)

/-- Some paths have come to the same twice, so far as they can be told apart. -/
structure Alike {α : Type} (since : Tables) (paths : List Path) (one other : Store × α) : Prop where
  -- The catalogs hold the same of every key that at most one path is shown as, but for ids and times that
  -- are newer than the tables.
  accounts : ∀ key, ShownOnce key paths →
    (one.1.tables.account? key).map (·.since since) = (other.1.tables.account? key).map (·.since since)
  result : ShownApart paths → one.2 = other.2

section Alike

variable {α : Type} {since : Tables} {paths : List Path} {one other third : Store × α}

theorem Alike.symm (h : Alike since paths one other) : Alike since paths other one :=
  ⟨fun key hshown => (h.accounts key hshown).symm, fun hapart => (h.result hapart).symm⟩

theorem Alike.trans (h : Alike since paths one other) (h' : Alike since paths other third) :
    Alike since paths one third :=
  ⟨fun key hshown => (h.accounts key hshown).trans (h'.accounts key hshown),
    fun hapart => (h.result hapart).trans (h'.result hapart)⟩

end Alike

variable {store after after' : Store} {files : FileTree} {clock clock' : Nat → Timestamp}
  {root : Path} {workers workers' : Nat} {result result' : Except ScanError ScanReport}

theorem alike_takeInAll (hstore : store.tables.Consistent) {paths order order' : List Path}
    (hperm : order.Perm paths) (hperm' : order'.Perm paths) (files : FileTree)
    (clock clock' : Nat → Timestamp) :
    Alike store.tables paths (takeInAll store files clock order)
      (takeInAll store files clock' order') where
  accounts _ hshown := account?_takeInAll_perm hstore (hshown.of_perm hperm)
    (hperm.trans hperm'.symm) files clock clock'
  result hapart := report_takeInAll_perm hstore (hapart.of_perm hperm) (hperm.trans hperm'.symm) files
    clock clock'

theorem exists_scans (store : Store) (files : FileTree) (clock : Nat → Timestamp) (root : Path)
    (workers : Nat) : ∃ after result, Scans store files clock root workers after result := by
  cases hroot : files.isDirectory root with
  | false => exact ⟨_, _, .refused hroot⟩
  | true =>
    have hstart : Pipeline.Run files clock (Pipeline.start store files root workers)
        (Pipeline.start store files root workers) := .refl
    obtain ⟨last, hrun, hdone⟩ :=
      Pipeline.exists_finished files clock (Pipeline.workers_ne_nil hstart)
    exact ⟨_, _, .finished hroot hrun hdone⟩

/-- A finished scan has taken in all files to be stored, each once, in some order. -/
theorem Scans.exists_order (h : Scans store files clock root workers after result) :
    files.isDirectory root = false ∧ after = store ∧ result = .error (.notDirectory root) ∨
      files.isDirectory root = true ∧ ∃ order report, order.Perm (sources files root) ∧
        takeInAll store files clock order = (after, report) ∧
        result = .ok { report with failed := report.failed + unreachable files root } := by
  cases h with
  | refused hroot => exact .inl ⟨hroot, rfl, rfl⟩
  | @finished last hroot hrun hdone =>
    have hsound := (Pipeline.sound_start files clock store root workers).run hrun
    obtain ⟨hperm, hmissed⟩ := hsound.written_perm hdone
    refine .inr ⟨hroot, last.written, last.report, hperm, hsound.written, ?_⟩
    rw [Pipeline.outcome, hmissed]

/-- Any two scans of a directory, and the one that does one thing at a time, come to the same. -/
theorem Scans.agrees (hstore : store.tables.Consistent)
    (h : Scans store files clock root workers after result) (clock' : Nat → Timestamp) :
    Alike store.tables (sources files root) (after, result) (scan store files clock' root) := by
  rw [scan]
  rcases h.exists_order with ⟨hroot, rfl, rfl⟩ | ⟨hroot, order, report, hperm, htaken, rfl⟩
  · rw [hroot]
    exact ⟨fun _ _ => rfl, fun _ => rfl⟩
  · rw [hroot, if_pos rfl]
    have halike := alike_takeInAll hstore hperm (.refl _) files clock clock'
    rw [htaken] at halike
    refine ⟨halike.accounts, fun hapart => ?_⟩
    have hreport : report = (takeInAll store files clock' (sources files root)).2 :=
      halike.result hapart
    rw [hreport]

/-- Paths that are texts do not look alike. -/
theorem shownApart_of_texts (hfiles : files.NamedByTexts) (hroot : root.text?.isSome) :
    ShownApart (sources files root) := by
  intro path hpath other hother hshown
  obtain ⟨s, hs⟩ := Option.isSome_iff_exists.mp (hfiles.of_reaches hroot (mem_sources_iff.mp hpath).1)
  obtain ⟨t, ht⟩ := Option.isSome_iff_exists.mp (hfiles.of_reaches hroot (mem_sources_iff.mp hother).1)
  rw [RawText.text_of_text? hs, RawText.text_of_text? ht] at hshown
  rw [RawText.text?_eq_some_iff.mp hs, RawText.text?_eq_some_iff.mp ht, hshown]

end Catalog.Import
