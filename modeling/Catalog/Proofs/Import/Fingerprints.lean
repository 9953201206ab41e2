import Catalog.Proofs.Import.Order

/-! The fingerprints that scans leave behind. Those of an image replace the ones before; a file that is no
image, or no longer one, brings none, and then the ones before stay. -/

namespace Catalog

open Catalog.Files Catalog.Import Catalog.Order Catalog.Text

abbrev Fingerprints := List (String × String)

namespace Import

/-- The fingerprints that are learned from the file at a path, if something is learned from it and all of it
can be read. -/
def learned? (files : FileTree) (path : Path) : Option (Option Fingerprints) := do
  let job ← (Job.ofPath files path).toOption
  let _ ← (Observation.ofPath files path).toOption
  pure job.hashes

theorem learned?_eq (rules : FlattenRules) (files : FileTree) (path : Path) :
    learned? files path = (delivery? rules files path).map (·.hashes) := by
  rw [learned?, delivery?]
  cases Job.ofPath files path with
  | error cause => rfl
  | ok job => cases Observation.ofPath files path <;> rfl

/-- What is stored for a path after something was learned from its file. -/
def learn (stored : Option Fingerprints) (learned : Option (Option Fingerprints)) :
    Option Fingerprints :=
  learned.elim stored fun given => some (given.getD (stored.getD []))

theorem learn_learn (stored : Option Fingerprints) (learned : Option (Option Fingerprints)) :
    learn (learn stored learned) learned = learn stored learned := by
  cases learned with
  | none => rfl
  | some given => cases given <;> rfl

def OfImage (hashes : Fingerprints) : Prop :=
  hashes = [] ∨ ∃ image, hashes = Media.fingerprints image

theorem ofImage_of_learned? {files : FileTree} {path : Path} {hashes : Fingerprints}
    (h : learned? files path = some (some hashes)) : ∃ image, hashes = Media.fingerprints image := by
  obtain ⟨job, hjob, h⟩ := Option.bind_eq_some_iff.mp h
  obtain ⟨seen, -, h⟩ := Option.bind_eq_some_iff.mp h
  have hhashes : job.hashes = some hashes := Option.some.inj h
  cases hresult : Job.ofPath files path with
  | error cause =>
    rw [hresult] at hjob
    cases hjob
  | ok found =>
    rw [hresult] at hjob
    obtain rfl : found = job := Option.some.inj hjob
    obtain ⟨content, -, -, sidecar, -, -, -, rfl⟩ := Job.ofPath_eq_ok_iff.mp hresult
    dsimp only [imageHashes] at hhashes
    split at hhashes
    · obtain ⟨bitmap, -, heq⟩ := Option.map_eq_some_iff.mp hhashes
      exact ⟨_, heq.symm⟩
    · cases hhashes

theorem algorithms_fingerprints (image : Media.Image) :
    (Media.fingerprints image).map (·.1) = ["ahash", "dhash", "phash"] := rfl

theorem ascending_fingerprints (image : Media.Image) : Ascending (Media.fingerprints image) := by
  rw [Ascending, ← List.pairwise_map (f := Prod.fst), algorithms_fingerprints]
  decide

/-- Fingerprints take the place of those that were stored for another image. -/
theorem withHashes_fingerprints {hashes : Fingerprints} (h : OfImage hashes) (image : Media.Image) :
    withHashes (some (Media.fingerprints image)) hashes = Media.fingerprints image := by
  have hnew := ascending_fingerprints image
  have hold : Ascending hashes := by
    rcases h with rfl | ⟨other, rfl⟩
    · exact .nil
    · exact ascending_fingerprints other
  apply (Tables.ascending_withHashes hold _).ext hnew
  intro algorithm
  rw [Tables.get?_withHashes, Option.getD_some, hnew.keyed_eq]
  cases hget : get? algorithm (Media.fingerprints image) with
  | some hash => rfl
  | none =>
    have hnot := get?_eq_none_iff.mp hget
    rw [algorithms_fingerprints] at hnot
    rw [Option.none_or, get?_eq_none_iff]
    rcases h with rfl | ⟨other, rfl⟩
    · exact List.not_mem_nil
    · rw [algorithms_fingerprints]
      exact hnot

end Import

namespace Store

/-- The fingerprints stored for a path; nothing if the path is not stored. -/
def hashesAt? (store : Store) (path : Path) : Option Fingerprints :=
  (store.fileAt? path).map fun file => store.hashes file.id

theorem hashesAt?_eq (store : Store) (path : Path) :
    store.hashesAt? path = (store.tables.account? path.text).map (·.hashes) := by
  rw [hashesAt?, Tables.account?, Option.map_map]
  rfl

/-- A catalog in which every file can be stored, and all fingerprints are those of images. -/
structure Stocked (store : Store) : Prop where
  consistent : store.tables.Consistent
  layout : store.tables.layout = ⟨true, true, false, true⟩
  ofImage : ∀ path hashes, store.hashesAt? path = some hashes → OfImage hashes

theorem stocked_ofTables (settings : Settings) : (ofTables settings {}).Stocked where
  consistent := Tables.consistent_empty.complete
  layout := rfl
  ofImage path hashes h := by cases h

variable {store : Store} {files : FileTree} {now : Timestamp} {path other : Path}

theorem Stocked.accepts_iff (h : store.Stocked) :
    store.accepts files path = (learned? files path).isSome := by
  rw [learned?_eq store.settings.flatten, accepts, delivery?, h.layout]
  cases Import.delivery? store.settings.flatten files path with
  | none => rfl
  | some delivery => cases store.tables.account? path.text <;> simp [Layout.admits]

theorem Stocked.hashesAt?_takeIn_self (h : store.Stocked) (files : FileTree) (now : Timestamp)
    (path : Path) :
    (takeIn store files now path).1.hashesAt? path =
      learn (store.hashesAt? path) (learned? files path) := by
  cases hlearned : learned? files path with
  | none =>
    rw [takeIn_of_not_accepts h.consistent now (by rw [h.accepts_iff, hlearned]; rfl)]
    rfl
  | some given =>
    obtain ⟨delivery, time, hdelivery, haccount⟩ :=
      account?_takeIn_self h.consistent now (by rw [h.accepts_iff, hlearned]; rfl)
    have hgiven : delivery.hashes = given := by
      rw [learned?_eq store.settings.flatten, show Import.delivery? _ files path = _ from hdelivery]
        at hlearned
      exact Option.some.inj hlearned
    have hknown : (Account.upserted store.tables.nextFile store.tables.nextEntry time path.text
        delivery.seen delivery.extracted delivery.hashes none
        (store.tables.account? path.text)).hashes =
          withHashes delivery.hashes ((store.hashesAt? path).getD []) := by
      rw [hashesAt?_eq]
      cases store.tables.account? path.text <;> rfl
    have hold : OfImage ((store.hashesAt? path).getD []) := by
      cases hstored : store.hashesAt? path with
      | none => exact .inl rfl
      | some hashes => exact h.ofImage path hashes hstored
    rw [hashesAt?_eq, haccount, Option.map_some, hknown, hgiven]
    refine congrArg some ?_
    cases given with
    | none => rfl
    | some hashes =>
      obtain ⟨image, rfl⟩ := ofImage_of_learned? hlearned
      exact withHashes_fingerprints hold image

theorem hashesAt?_takeIn_of_ne (h : store.tables.Consistent) (hne : other.text ≠ path.text) :
    (takeIn store files now path).1.hashesAt? other = store.hashesAt? other := by
  rw [hashesAt?_eq, account?_takeIn_of_ne h hne, hashesAt?_eq]

theorem Stocked.takeIn (h : store.Stocked) (files : FileTree) (now : Timestamp) (path : Path) :
    (takeIn store files now path).1.Stocked where
  consistent := consistent_takeIn h.consistent
  layout := (layout_takeIn h.consistent).trans h.layout
  ofImage other hashes hstored := by
    by_cases heq : other.text = path.text
    · rw [hashesAt?_eq, heq, ← hashesAt?_eq, h.hashesAt?_takeIn_self] at hstored
      cases hlearned : learned? files path with
      | none =>
        rw [hlearned] at hstored
        exact h.ofImage path hashes hstored
      | some given =>
        rw [hlearned] at hstored
        obtain rfl : given.getD ((store.hashesAt? path).getD []) = hashes := Option.some.inj hstored
        cases given with
        | some given => exact .inr (ofImage_of_learned? hlearned)
        | none =>
          cases hold : store.hashesAt? path with
          | none => exact .inl rfl
          | some old => exact h.ofImage path old hold
    · rw [hashesAt?_takeIn_of_ne h.consistent heq] at hstored
      exact h.ofImage other hashes hstored

end Store

namespace Import

variable {store : Store} {files : FileTree} {clock : Nat → Timestamp} {paths : List Path}

theorem stocked_takeInAll (h : store.Stocked) : (takeInAll store files clock paths).1.Stocked := by
  induction paths generalizing store clock with
  | nil => exact h
  | cons path rest ih => exact ih (h.takeIn files (clock 0) path)

theorem hashesAt?_takeInAll (h : store.Stocked) {path : Path} (hapart : Unmistakable path paths) :
    (takeInAll store files clock paths).1.hashesAt? path =
      if path ∈ paths then learn (store.hashesAt? path) (learned? files path)
      else store.hashesAt? path := by
  induction paths generalizing store clock with
  | nil => rfl
  | cons first rest ih =>
    obtain ⟨hfirst, hrest⟩ := List.forall_mem_cons.mp hapart
    rw [takeInAll_cons, ih (h.takeIn files (clock 0) first) hrest]
    by_cases heq : path.text = first.text
    · rw [hfirst heq, if_pos List.mem_cons_self, h.hashesAt?_takeIn_self, learn_learn, ite_self]
    · have hne : path ≠ first := fun hsame => heq (congrArg RawText.text hsame)
      rw [Store.hashesAt?_takeIn_of_ne h.consistent heq]
      simp only [List.mem_cons, hne, false_or]

/-! ### One scan after the other -/

structure Sweep where
  files : FileTree
  clock : Nat → Timestamp
  root : Path

namespace Sweep

def run (store : Store) (sweep : Sweep) : Store :=
  (scan store sweep.files sweep.clock sweep.root).1

/-- None of the files that the scan stores looks like the path but the one at it. -/
def Tells (sweep : Sweep) (path : Path) : Prop := Unmistakable path (sources sweep.files sweep.root)

instance Tells.decidable (sweep : Sweep) (path : Path) : Decidable (sweep.Tells path) :=
  inferInstanceAs (Decidable (Unmistakable path (sources sweep.files sweep.root)))

/-- The fingerprints that are learned from the file at a path, if it is stored in the course of the
scan. -/
def learned? (sweep : Sweep) (path : Path) : Option (Option Fingerprints) :=
  if sweep.files.isDirectory sweep.root = true ∧ path ∈ sources sweep.files sweep.root then
    Import.learned? sweep.files path
  else none

theorem hashesAt?_run {store : Store} (h : store.Stocked) {sweep : Sweep} {path : Path}
    (hapart : sweep.Tells path) :
    (sweep.run store).Stocked ∧
      (sweep.run store).hashesAt? path = learn (store.hashesAt? path) (sweep.learned? path) := by
  rw [run, scan, learned?]
  cases hroot : sweep.files.isDirectory sweep.root with
  | false => exact ⟨h, rfl⟩
  | true =>
    refine ⟨stocked_takeInAll h, (hashesAt?_takeInAll h hapart).trans ?_⟩
    by_cases hmem : path ∈ sources sweep.files sweep.root
    · rw [if_pos hmem, if_pos ⟨rfl, hmem⟩]
    · rw [if_neg hmem, if_neg fun hboth => hmem hboth.2]
      rfl

theorem ne_nil_of_learned? {sweep : Sweep} {path : Path} {hashes : Fingerprints}
    (h : sweep.learned? path = some (some hashes)) : hashes ≠ [] := by
  rw [learned?] at h
  split at h
  · obtain ⟨image, rfl⟩ := ofImage_of_learned? h
    exact List.cons_ne_nil _ _
  · cases h

end Sweep

def afterSweeps (store : Store) (sweeps : List Sweep) : Store := sweeps.foldl Sweep.run store

/-- After some scans, what is stored for a path is what they have learned of it one after the other. -/
theorem hashesAt?_afterSweeps {store : Store} (h : store.Stocked) {sweeps : List Sweep} {path : Path}
    (hapart : ∀ sweep ∈ sweeps, sweep.Tells path) :
    (afterSweeps store sweeps).hashesAt? path =
      (sweeps.map (·.learned? path)).foldl learn (store.hashesAt? path) := by
  induction sweeps generalizing store with
  | nil => rfl
  | cons sweep rest ih =>
    obtain ⟨hfirst, hrest⟩ := List.forall_mem_cons.mp hapart
    obtain ⟨hstocked, hrun⟩ := Sweep.hashesAt?_run h hfirst
    rw [afterSweeps, List.foldl_cons, ← afterSweeps, ih hstocked hrest, hrun, List.map_cons,
      List.foldl_cons]

/-- Once fingerprints are stored for a path there are some for ever. -/
theorem foldl_learn_eq_nil_iff (sweeps : List Sweep) (path : Path) (stored : Option Fingerprints) :
    ((sweeps.map (·.learned? path)).foldl learn stored).getD [] = [] ↔
      stored.getD [] = [] ∧ ∀ sweep ∈ sweeps, (sweep.learned? path).join = none := by
  induction sweeps generalizing stored with
  | nil => simp
  | cons sweep rest ih =>
    have hfirst : (learn stored (sweep.learned? path)).getD [] = [] ↔
        stored.getD [] = [] ∧ (sweep.learned? path).join = none := by
      cases hlearned : sweep.learned? path with
      | none => exact (and_iff_left rfl).symm
      | some given =>
        cases given with
        | none => exact (and_iff_left rfl).symm
        | some hashes =>
          apply iff_of_false (Sweep.ne_nil_of_learned? hlearned)
          rintro ⟨-, hnone⟩
          cases hnone
    rw [List.map_cons, List.foldl_cons, ih, hfirst, List.forall_mem_cons, and_assoc]

/-- What a scan stores for a path are the fingerprints of the file as it is exactly if it has some, or if
no scan before has found any; unless another file looks like it. -/
theorem hashes_follow_content_iff (settings : Settings) (sweeps : List Sweep) (sweep : Sweep)
    (path : Path) (given : Option Fingerprints) (h : sweep.learned? path = some given)
    (hapart : ∀ each ∈ sweeps ++ [sweep], each.Tells path) :
    (afterSweeps (Store.ofTables settings {}) (sweeps ++ [sweep])).hashesAt? path =
        some (given.getD []) ↔
      given.isSome ∨ ∀ earlier ∈ sweeps, (earlier.learned? path).join = none := by
  have hnew := Store.stocked_ofTables settings
  rw [hashesAt?_afterSweeps hnew hapart, List.map_append, List.foldl_append, List.map_singleton, h]
  have hnone := foldl_learn_eq_nil_iff sweeps path ((Store.ofTables settings {}).hashesAt? path)
  generalize (sweeps.map (·.learned? path)).foldl learn
    ((Store.ofTables settings {}).hashesAt? path) = stored at hnone ⊢
  show some (given.getD (stored.getD [])) = some (given.getD []) ↔ _
  cases given with
  | some hashes => exact iff_of_true rfl (.inl rfl)
  | none =>
    rw [Option.some.injEq]
    refine (hnone.trans (and_iff_right rfl)).trans (or_iff_right ?_).symm
    exact Bool.false_ne_true

def sweepOf (bytes : List UInt8) : Sweep :=
  ⟨⟨[(["r"], .directory), (["r", "a.bmp"], .file (.sound bytes) 0)]⟩, fun _ => "", "r"⟩

def greyPixel : List UInt8 :=
  -- A bitmap of one pixel, three bytes of 128 at its end.
  [66, 77, 58, 0, 0, 0, 0, 0, 0, 0, 54, 0, 0, 0, 40, 0, 0, 0, 1, 0, 0, 0, 1, 0, 0, 0, 1, 0, 24, 0, 0, 0,
    0, 0, 4, 0, 0, 0, 19, 11, 0, 0, 19, 11, 0, 0, 0, 0, 0, 0, 0, 0, 0, 0, 128, 128, 128, 0]

theorem hashes_follow_content_of_text :
    ((sweepOf [120]).learned? "r/a.bmp" = some none ∧
        ∀ each ∈ [] ++ [sweepOf [120]], each.Tells "r/a.bmp") ∧
      (afterSweeps (Store.ofTables {} {}) [sweepOf [120]]).hashesAt? "r/a.bmp" = some [] := by
  have htext : (sweepOf [120]).learned? "r/a.bmp" = some none := by decide +kernel
  have hapart : ∀ each ∈ [] ++ [sweepOf [120]], each.Tells "r/a.bmp" := by decide +kernel
  refine ⟨⟨htext, hapart⟩,
    (hashes_follow_content_iff {} [] (sweepOf [120]) "r/a.bmp" none htext hapart).mpr (.inr ?_)⟩
  intro earlier hearlier
  cases hearlier

/-- The fingerprints of a bitmap are still there when a text has taken its place. -/
theorem hashes_outlive_bitmap :
    (sweepOf [120]).learned? "r/a.bmp" = some none ∧
      (afterSweeps (Store.ofTables {} {}) [sweepOf greyPixel, sweepOf [120]]).hashesAt? "r/a.bmp" ≠
        some [] := by
  refine ⟨by decide +kernel, ?_⟩
  intro hempty
  have hbitmap : ((sweepOf greyPixel).learned? "r/a.bmp").join.isSome = true := by decide +kernel
  have hapart : ∀ sweep ∈ [sweepOf greyPixel, sweepOf [120]], sweep.Tells "r/a.bmp" := by
    decide +kernel
  rw [hashesAt?_afterSweeps (Store.stocked_ofTables {}) hapart] at hempty
  have hnone := (foldl_learn_eq_nil_iff [sweepOf greyPixel, sweepOf [120]] "r/a.bmp" _).mp
    (congrArg (·.getD []) hempty)
  rw [hnone.2 _ List.mem_cons_self] at hbitmap
  cases hbitmap

end Import

end Catalog
