import Mathlib.Logic.Function.Basic
import Catalog.Proofs.Import.Intake

/-! The order of a scan. Once new ids and times are left out, taking in a file changes the account of its
path only, and in a way that depends on that account only; so files can be taken in in any order, unless two
of their paths look alike and share one account. -/

namespace Catalog

open Catalog.Files Catalog.Import Catalog.Text

/-! ### Catalogs without new ids and times -/

section Since

variable {since : Tables}

theorem Tables.knownFile_knownFile (id : FileId) :
    since.knownFile (since.knownFile id) = since.knownFile id := by
  by_cases hknown : id < since.nextFile
  · have hid : since.knownFile id = id := if_pos hknown
    rw [hid, hid]
  · have hid : since.knownFile id = 0 := if_neg hknown
    rw [hid]
    exact ite_self 0

theorem FileRecord.since_since (record : FileRecord) :
    (record.since since).since since = record.since since := by
  by_cases hknown : record.id < since.nextFile
  · have hid : since.knownFile record.id = record.id := if_pos hknown
    simp only [FileRecord.since, hid, if_pos hknown]
  · rw [FileRecord.since_of_new (Int.not_lt.mp hknown)]
    simp only [FileRecord.since, Tables.knownFile, ite_self]

theorem LedgerEntry.since_since (entry : LedgerEntry) :
    (entry.since since).since since = entry.since since := by
  by_cases hknown : entry.id < since.nextEntry
  · simp only [LedgerEntry.since, Tables.knownFile_knownFile, if_pos hknown]
  · simp only [LedgerEntry.since, Tables.knownFile_knownFile, if_neg hknown, ite_self]

theorem Account.since_since (account : Account) :
    (account.since since).since since = account.since since := by
  have hhistory : (account.history.map (·.since since)).map (·.since since) =
      account.history.map (·.since since) := by
    rw [List.map_map]
    exact List.map_congr_left fun entry _ => entry.since_since
  simp only [Account.since, FileRecord.since_since, hhistory]

theorem Layout.admits_since (layout : Layout) (known : Option Account) (delivery : Delivery) :
    layout.admits (known.map (·.since since)) delivery = layout.admits known delivery := by
  cases known <;> rfl

end Since

/-- What is left of a catalog when ids and times are left out that are newer than some tables. -/
structure Outline where
  settings : Settings
  layout : Layout
  account? : String → Option Account

def Store.outline (since : Tables) (store : Store) : Outline where
  settings := store.settings
  layout := store.tables.layout
  account? path := (store.tables.account? path).map (·.since since)

namespace Outline

def accepts (outline : Outline) (files : FileTree) (path : Path) : Bool :=
  (delivery? outline.settings.flatten files path).any
    (outline.layout.admits (outline.account? path.text))

def taken (since : Tables) (files : FileTree) (outline : Outline) (path : Path) : Option Account :=
  if outline.accepts files path then
    (delivery? outline.settings.flatten files path).map fun delivery =>
      (Account.upserted since.nextFile since.nextEntry "" path.text delivery.seen delivery.extracted
        delivery.hashes none (outline.account? path.text)).since since
  else outline.account? path.text

def takeIn (since : Tables) (files : FileTree) (outline : Outline) (path : Path) : Outline :=
  { outline with
    account? := Function.update outline.account? path.text (outline.taken since files path) }

variable {since : Tables} {files : FileTree}

section

variable {path other : Path} (outline : Outline)

theorem account?_takeIn_of_ne {key : String} (hne : key ≠ path.text) :
    (outline.takeIn since files path).account? key = outline.account? key :=
  Function.update_of_ne hne _ _

theorem account?_takeIn_self :
    (outline.takeIn since files path).account? path.text = outline.taken since files path :=
  Function.update_self _ _ _

theorem accepts_takeIn_of_ne (hne : other.text ≠ path.text) :
    (outline.takeIn since files path).accepts files other = outline.accepts files other := by
  rw [accepts, outline.account?_takeIn_of_ne hne]
  rfl

theorem taken_takeIn_of_ne (hne : other.text ≠ path.text) :
    (outline.takeIn since files path).taken since files other =
      outline.taken since files other := by
  rw [taken, outline.accepts_takeIn_of_ne hne, outline.account?_takeIn_of_ne hne]
  rfl

/-- Taking in one file is nothing to the taking in of another. -/
theorem takeIn_comm (hne : path.text ≠ other.text) :
    (outline.takeIn since files path).takeIn since files other =
      (outline.takeIn since files other).takeIn since files path := by
  have hupdate := Function.update_comm hne (outline.taken since files path)
    (outline.taken since files other) outline.account?
  have hpath : (outline.takeIn since files other).taken since files path =
      outline.taken since files path := outline.taken_takeIn_of_ne hne
  have hother : (outline.takeIn since files path).taken since files other =
      outline.taken since files other := outline.taken_takeIn_of_ne hne.symm
  show Outline.mk outline.settings outline.layout (Function.update
      (outline.takeIn since files path).account? other.text
      ((outline.takeIn since files path).taken since files other)) =
    Outline.mk outline.settings outline.layout (Function.update
      (outline.takeIn since files other).account? path.text
      ((outline.takeIn since files other).taken since files path))
  rw [hpath, hother]
  exact congrArg _ hupdate

end

/-! ### One account -/

/-- The outlines hold the same of a key. -/
structure AgreesAt (key : String) (outline outline' : Outline) : Prop where
  settings : outline.settings = outline'.settings
  layout : outline.layout = outline'.layout
  account : outline.account? key = outline'.account? key

variable {key : String} {outline outline' : Outline} {path : Path}

theorem AgreesAt.refl (key : String) (outline : Outline) : outline.AgreesAt key outline :=
  ⟨rfl, rfl, rfl⟩

/-- What is not of the key is nothing to its account, -/
theorem AgreesAt.takeIn_of_ne (h : outline.AgreesAt key outline') (hne : key ≠ path.text) :
    (outline.takeIn since files path).AgreesAt key outline' :=
  ⟨h.settings, h.layout, (outline.account?_takeIn_of_ne hne).trans h.account⟩

/-- and what is of the key depends on its account only. -/
theorem AgreesAt.takeIn_self (h : outline.AgreesAt path.text outline') :
    (outline.takeIn since files path).AgreesAt path.text (outline'.takeIn since files path) := by
  refine ⟨h.settings, h.layout, ?_⟩
  rw [account?_takeIn_self, account?_takeIn_self, taken, taken, accepts, accepts, h.settings, h.layout,
    h.account]

/-- The account of a key comes from the paths that are shown as the key. -/
theorem AgreesAt.foldl_takeIn (h : outline.AgreesAt key outline') (paths : List Path) :
    (paths.foldl (takeIn since files) outline).AgreesAt key
      ((paths.filter fun path => path.text = key).foldl (takeIn since files) outline') := by
  induction paths generalizing outline outline' with
  | nil => exact h
  | cons path rest ih =>
    by_cases heq : path.text = key
    · subst heq
      rw [List.filter_cons_of_pos (by simp)]
      exact ih h.takeIn_self
    · rw [List.filter_cons_of_neg (by simpa using heq)]
      exact ih (h.takeIn_of_ne (Ne.symm heq))

end Outline

namespace Store

variable {store : Store} {since : Tables} {files : FileTree} {now : Timestamp} {path : Path}

theorem accepts_outline (store : Store) (files : FileTree) (path : Path) :
    (store.outline since).accepts files path = store.accepts files path := by
  have hadmits : (store.outline since).layout.admits ((store.outline since).account? path.text) =
      store.tables.layout.admits (store.tables.account? path.text) :=
    funext fun delivery => Layout.admits_since _ _ delivery
  rw [Outline.accepts, hadmits]
  rfl

/-- What is known of a path after its file was taken in follows from the outline before. -/
theorem taken_outline (h : store.tables.Consistent)
    (hfile : since.nextFile ≤ store.tables.nextFile)
    (hentry : since.nextEntry ≤ store.tables.nextEntry) (now : Timestamp) :
    ((takeIn store files now path).1.tables.account? path.text).map (·.since since) =
      (store.outline since).taken since files path := by
  rw [Outline.taken, accepts_outline]
  split
  · rename_i hyes
    obtain ⟨delivery, time, hdelivery, htaken⟩ := account?_takeIn_self h now hyes
    rw [htaken, show Import.delivery? (store.outline since).settings.flatten files path =
      some delivery from hdelivery]
    apply congrArg some
    apply Account.since_upserted hfile (Int.le_refl _) hentry (Nat.le_refl _)
    show _ = ((store.tables.account? path.text).map (·.since since)).map (·.since since)
    cases store.tables.account? path.text with
    | none => rfl
    | some account => exact congrArg some account.since_since.symm
  · rename_i hno
    rw [takeIn_of_not_accepts h now (by simpa using hno)]
    rfl

/-- The outline after taking in a file follows from the outline before. -/
theorem outline_takeIn (h : store.tables.Consistent)
    (hfile : since.nextFile ≤ store.tables.nextFile)
    (hentry : since.nextEntry ≤ store.tables.nextEntry) (now : Timestamp) :
    (takeIn store files now path).1.outline since =
      (store.outline since).takeIn since files path := by
  rw [outline, settings_takeIn h, layout_takeIn h, Outline.takeIn, ← taken_outline h hfile hentry now]
  congr 1
  funext key
  by_cases heq : key = path.text
  · rw [heq, Function.update_self]
  · rw [Function.update_of_ne heq, account?_takeIn_of_ne h heq]
    rfl

end Store

/-! ### Runs over several files -/

namespace Import

def ScanReport.count (report : ScanReport) (ok : Bool) : ScanReport where
  seen := report.seen + 1
  stored := report.stored + ok.toNat
  failed := report.failed + (!ok).toNat

theorem ScanReport.count_comm (report : ScanReport) (ok ok' : Bool) :
    (report.count ok).count ok' = (report.count ok').count ok := by
  simp only [count, Nat.add_right_comm]

theorem takeInAll_cons (store : Store) (files : FileTree) (clock : Nat → Timestamp) (path : Path)
    (rest : List Path) :
    takeInAll store files clock (path :: rest) =
      ((takeInAll (takeIn store files (clock 0) path).1 files (fun n => clock (n + 1)) rest).1,
        (takeInAll (takeIn store files (clock 0) path).1 files (fun n => clock (n + 1)) rest).2.count
          (takeIn store files (clock 0) path).2) := rfl

theorem takeInAll_snoc (store : Store) (files : FileTree) (clock : Nat → Timestamp)
    (paths : List Path) (path : Path) :
    takeInAll store files clock (paths ++ [path]) =
      ((takeIn (takeInAll store files clock paths).1 files (clock paths.length) path).1,
        (takeInAll store files clock paths).2.count
          (takeIn (takeInAll store files clock paths).1 files (clock paths.length) path).2) := by
  induction paths generalizing store clock with
  | nil => rfl
  | cons first rest ih =>
    rw [List.cons_append, takeInAll_cons, ih, takeInAll_cons]
    dsimp only [List.length_cons]
    rw [ScanReport.count_comm]

/-- None of the paths looks like this one but itself. -/
def Unmistakable (path : Path) (paths : List Path) : Prop :=
  ∀ other ∈ paths, path.text = other.text → path = other

instance Unmistakable.decidable (path : Path) (paths : List Path) :
    Decidable (Unmistakable path paths) :=
  inferInstanceAs (Decidable (∀ other ∈ paths, path.text = other.text → path = other))

/-- No two of the paths look alike. -/
def ShownApart (paths : List Path) : Prop := ∀ path ∈ paths, Unmistakable path paths

instance ShownApart.decidable (paths : List Path) : Decidable (ShownApart paths) :=
  inferInstanceAs (Decidable (∀ path ∈ paths, Unmistakable path paths))

theorem ShownApart.of_perm {paths paths' : List Path} (h : ShownApart paths)
    (hperm : paths'.Perm paths) : ShownApart paths' :=
  fun path hpath other hother => h path (hperm.mem_iff.mp hpath) other (hperm.mem_iff.mp hother)

/-- At most one of the paths is shown as the key. -/
def ShownOnce (key : String) (paths : List Path) : Prop :=
  ∀ path ∈ paths, path.text = key → Unmistakable path paths

theorem ShownOnce.of_perm {key : String} {paths paths' : List Path} (h : ShownOnce key paths)
    (hperm : paths'.Perm paths) : ShownOnce key paths' :=
  fun path hpath hkey other hother =>
    h path (hperm.mem_iff.mp hpath) hkey other (hperm.mem_iff.mp hother)

/-- If only one path is shown as the key, then it comes as often in any order. -/
theorem ShownOnce.filter_eq {key : String} {paths paths' : List Path} (h : ShownOnce key paths)
    (hperm : paths.Perm paths') :
    (paths.filter fun path => path.text = key) = paths'.filter fun path => path.text = key := by
  have hany : ∀ l : List Path, l.Pairwise fun _ _ => True := fun l =>
    List.pairwise_of_forall fun _ _ => trivial
  refine (hperm.filter _).eq_of_pairwise ?_ (hany _) (hany _)
  intro path other hpath hother _ _
  obtain ⟨hpath, hkey⟩ := List.mem_filter.mp hpath
  obtain ⟨hother, hkey'⟩ := List.mem_filter.mp hother
  have hshown : path.text = other.text := by
    rw [of_decide_eq_true hkey, of_decide_eq_true hkey']
  exact h path hpath (of_decide_eq_true hkey) other (hperm.mem_iff.mpr hother) hshown

theorem ShownApart.tail {path : Path} {rest : List Path} (h : ShownApart (path :: rest)) :
    ShownApart rest :=
  fun one hone other hother => h one (List.mem_cons_of_mem _ hone) other (List.mem_cons_of_mem _ hother)

def outlineStep (since : Tables) (files : FileTree) (state : Outline × ScanReport) (path : Path) :
    Outline × ScanReport :=
  (state.1.takeIn since files path, state.2.count (state.1.accepts files path))

variable {since : Tables} {files : FileTree}

theorem outlineStep_comm {path other : Path} (hapart : path.text = other.text → path = other)
    (state : Outline × ScanReport) :
    outlineStep since files (outlineStep since files state path) other =
      outlineStep since files (outlineStep since files state other) path := by
  by_cases heq : path.text = other.text
  · rw [hapart heq]
  · rw [outlineStep, outlineStep, outlineStep, outlineStep]
    dsimp only
    rw [Outline.takeIn_comm _ heq, Outline.accepts_takeIn_of_ne _ (Ne.symm heq),
      Outline.accepts_takeIn_of_ne _ heq, ScanReport.count_comm]

theorem foldl_outlineStep_count (outline : Outline) (report : ScanReport) (ok : Bool)
    (paths : List Path) :
    paths.foldl (outlineStep since files) (outline, report.count ok) =
      ((paths.foldl (outlineStep since files) (outline, report)).1,
        (paths.foldl (outlineStep since files) (outline, report)).2.count ok) := by
  induction paths generalizing outline report with
  | nil => rfl
  | cons path rest ih =>
    rw [List.foldl_cons, List.foldl_cons, outlineStep, outlineStep, ← ih]
    dsimp only
    rw [ScanReport.count_comm]

/-- A run over a catalog, seen in outline, is the run over its outline. -/
theorem outline_takeInAll {store : Store} (h : store.tables.Consistent)
    (hfile : since.nextFile ≤ store.tables.nextFile)
    (hentry : since.nextEntry ≤ store.tables.nextEntry) (files : FileTree)
    (clock : Nat → Timestamp) (paths : List Path) :
    ((takeInAll store files clock paths).1.outline since, (takeInAll store files clock paths).2) =
      paths.foldl (outlineStep since files) (store.outline since, {}) := by
  induction paths generalizing store clock with
  | nil => rfl
  | cons path rest ih =>
    have hcounters : since.nextFile ≤ (takeIn store files (clock 0) path).1.tables.nextFile ∧
        since.nextEntry ≤ (takeIn store files (clock 0) path).1.tables.nextEntry :=
      Store.takeIn_keeps
        (p := fun tables => since.nextFile ≤ tables.nextFile ∧ since.nextEntry ≤ tables.nextEntry)
        h ⟨hfile, hentry⟩ fun hok =>
          ⟨Int.le_trans hfile (Tables.counters_le_upsert hok).1,
            Nat.le_trans hentry (Tables.counters_le_upsert hok).2⟩
    have hrest := ih (Store.consistent_takeIn h) hcounters.1 hcounters.2 fun n => clock (n + 1)
    rw [List.foldl_cons, outlineStep, Store.accepts_outline, ← Store.takeIn_snd h files (clock 0),
      ← Store.outline_takeIn h hfile hentry (clock 0)]
    rw [foldl_outlineStep_count, ← hrest, takeInAll_cons]

section Perm

variable {store : Store} {paths paths' : List Path}

/-- What is known of a key after files were taken in comes from the paths that are shown as it. -/
theorem account?_takeInAll (h : store.tables.Consistent) (files : FileTree) (clock : Nat → Timestamp)
    (paths : List Path) (key : String) :
    ((takeInAll store files clock paths).1.tables.account? key).map (·.since store.tables) =
      ((paths.filter fun path => path.text = key).foldl (Outline.takeIn store.tables files)
        (store.outline store.tables)).account? key := by
  have hrun := outline_takeInAll h (Int.le_refl _) (Nat.le_refl _) files clock paths
  have hstates : (paths.foldl (outlineStep store.tables files) (store.outline store.tables, {})).1 =
      paths.foldl (Outline.takeIn store.tables files) (store.outline store.tables) :=
    (List.foldl_hom Prod.fst fun _ _ => rfl).symm
  rw [← hrun] at hstates
  exact (congrArg (Outline.account? · key) hstates).trans
    ((Outline.AgreesAt.refl key _).foldl_takeIn paths).account

/-- The order and the times in which files are taken in make no difference to an account but for new ids and
times, if only one of the paths is shown as its key. -/
theorem account?_takeInAll_perm {key : String} (h : store.tables.Consistent)
    (hshown : ShownOnce key paths) (hperm : paths.Perm paths') (files : FileTree)
    (clock clock' : Nat → Timestamp) :
    ((takeInAll store files clock paths).1.tables.account? key).map (·.since store.tables) =
      ((takeInAll store files clock' paths').1.tables.account? key).map (·.since store.tables) := by
  rw [account?_takeInAll h, account?_takeInAll h, hshown.filter_eq hperm]

/-- The report is the same as well, if no two of the paths look alike. -/
theorem report_takeInAll_perm (h : store.tables.Consistent) (hapart : ShownApart paths)
    (hperm : paths.Perm paths') (files : FileTree) (clock clock' : Nat → Timestamp) :
    (takeInAll store files clock paths).2 = (takeInAll store files clock' paths').2 := by
  have hfold := hperm.foldl_eq' (f := outlineStep store.tables files)
    (fun path hpath other hother state => outlineStep_comm (hapart path hpath other hother) state)
    (store.outline store.tables, {})
  have hleft := outline_takeInAll h (Int.le_refl _) (Nat.le_refl _) files clock paths
  have hright := outline_takeInAll h (Int.le_refl _) (Nat.le_refl _) files clock' paths'
  exact (Prod.mk.inj (hleft.trans (hfold.trans hright.symm))).2

end Perm

end Import

end Catalog
