import Catalog.Files.Walk
import Catalog.Import.Job
import Catalog.Store.Basic

/-! Scanning a directory: every file below it that is no sidecar is stored with what is learned from
it. A file that fails is counted, and the scan goes on. -/

namespace Catalog.Import

open Catalog.Files

/-- Why a scan does not start. -/
inductive ScanError where
  | notDirectory (path : Path)
deriving DecidableEq, Repr

/-- The message for a scan that does not start. -/
def ScanError.message : ScanError → String
  | .notDirectory path => "Not a directory: " ++ path.quoted

/-- The outcome of a scan in numbers. -/
structure ScanReport where
  /-- The files that were to be stored. -/
  seen : Nat := 0
  stored : Nat := 0
  /-- The files that could not be stored, and the entries that could not be reached. -/
  failed : Nat := 0
deriving DecidableEq, Repr, Inhabited

/-- The file that a scan stores when the walk comes across something. -/
def source? (files : FileTree) : Visit → Option Path
  | .file path => if isSidecar files path then none else some path
  | .unreadable _ => none

/-- The walk has come across what it cannot reach. -/
def isMiss : Visit → Bool
  | .file _ => false
  | .unreadable _ => true

/-- The files that a scan of a directory stores. -/
def sources (files : FileTree) (root : Path) : List Path :=
  (files.walk root).filterMap (source? files)

/-- The number of entries that a walk from a directory cannot reach. -/
def unreachable (files : FileTree) (root : Path) : Nat := (files.walk root).countP isMiss

/-- The catalog after storing what was learned from a file, and whether that succeeded. -/
def write (store : Store) (files : FileTree) (now : Timestamp) (job : Except JobError Job) :
    Store × Bool :=
  match job with
  | .error _ => (store, false)
  | .ok job =>
    match store.upsert files now job.path job.document job.hashes none with
    | (store, .ok _) => (store, true)
    | (store, .error _) => (store, false)

/-- The catalog after taking in the file at a path, and whether that succeeded. -/
def takeIn (store : Store) (files : FileTree) (now : Timestamp) (path : Path) : Store × Bool :=
  write store files now (Job.ofPath files path)

/-- The catalog after taking in files one after the other, and what became of them. The clock says when
each of them is stored. -/
def takeInAll (store : Store) (files : FileTree) (clock : Nat → Timestamp) :
    List Path → Store × ScanReport
  | [] => (store, {})
  | path :: rest =>
    let (store, ok) := takeIn store files (clock 0) path
    let (store, report) := takeInAll store files (fun n => clock (n + 1)) rest
    (store,
      { seen := report.seen + 1
        stored := report.stored + ok.toNat
        failed := report.failed + (!ok).toNat })

/-- The catalog after a scan of a directory, and its outcome. -/
def scan (store : Store) (files : FileTree) (clock : Nat → Timestamp) (root : Path) :
    Store × Except ScanError ScanReport :=
  if files.isDirectory root then
    let (store, report) := takeInAll store files clock (sources files root)
    (store, .ok { report with failed := report.failed + unreachable files root })
  else (store, .error (.notDirectory root))

end Catalog.Import
