import Catalog.Proofs.Files.Walk
import Catalog.Proofs.Import.Pipeline

/-! Hidden entries. A walk follows a link before it looks at its name, so a hidden link that cannot be
followed counts as an entry out of reach. Apart from these a scan is the one that looks at names first. Of the
names that start with a point those that are no texts are not hidden. -/

namespace Catalog

open Catalog.Files Catalog.Import

namespace Files

/-- The name starts with a point. -/
def isDotted (name : Name) : Bool := name.bytes.head? == some point

theorem isHidden_eq (name : Name) : isHidden name = (isDotted name && name.text?.isSome) := by
  rw [Bool.eq_iff_iff, isHidden_iff, Bool.and_eq_true, isDotted, beq_iff_eq, and_comm]

namespace FileTree

/-- What a walk comes across that looks at names first and passes over entries with certain names. -/
def visitPast (tree : FileTree) (passed : Name → Bool) :
    (depth : Nat) → Path → Location → (above : List Location) → List Visit
  | 0, _, _, _ => []
  | depth + 1, path, location, above =>
    if tree.isBarred location then [.unreadable path]
    else
      (tree.children location).flatMap fun child =>
        if passed child.1 then []
        else
          (tree.behind? (path.join child.1) location (location :: above) child.1 child.2).elim
            [.unreadable (path.join child.1)] fun found =>
              if found.2 then [.file (path.join child.1)]
              else visitPast tree passed depth (path.join child.1) found.1 (location :: above)

/-- The hidden entries that a walk comes across and cannot follow. -/
def straysWithin (tree : FileTree) :
    (depth : Nat) → Path → Location → (above : List Location) → List Path
  | 0, _, _, _ => []
  | depth + 1, path, location, above =>
    if tree.isBarred location then []
    else
      (tree.children location).flatMap fun child =>
        (tree.behind? (path.join child.1) location (location :: above) child.1 child.2).elim
          (if isHidden child.1 then [path.join child.1] else []) fun found =>
            if isHidden child.1 || found.2 then []
            else straysWithin tree depth (path.join child.1) found.1 (location :: above)

def walkPast (tree : FileTree) (passed : Name → Bool) (root : Path) : List Visit :=
  match tree.resolve root with
  | .ok location => tree.visitPast passed tree.deepest root location []
  | .error _ => []

def strays (tree : FileTree) (root : Path) : List Path :=
  match tree.resolve root with
  | .ok location => tree.straysWithin tree.deepest root location []
  | .error _ => []

section Visits

variable (tree : FileTree) (depth : Nat) (path : Path) (location : Location) (above : List Location)

/-- The files that a walk comes across are those that it comes across if it looks at names first. -/
theorem filterMap_visit {α : Type} {keep : Visit → Option α}
    (hkeep : ∀ path, keep (.unreadable path) = none) :
    (tree.visit depth path location above).filterMap keep =
      (tree.visitPast isHidden depth path location above).filterMap keep := by
  induction depth generalizing path location above with
  | zero => rfl
  | succ depth ih =>
    rw [visit_succ, visitPast]
    cases tree.isBarred location with
    | true => rfl
    | false =>
      rw [if_neg Bool.false_ne_true, if_neg Bool.false_ne_true, List.filterMap_flatMap,
        List.filterMap_flatMap]
      congr 1
      funext child
      cases tree.behind? (path.join child.1) location (location :: above) child.1 child.2 with
      | none =>
        rw [Option.elim_none, Option.elim_none, List.filterMap_cons_none (hkeep _)]
        split <;> simp [hkeep]
      | some found =>
        rw [Option.elim_some, Option.elim_some]
        cases isHidden child.1 with
        | true => rfl
        | false =>
          cases found.2 with
          | true => rfl
          | false => exact ih _ _ _

/-- Of the entries that a walk cannot reach the strays come on top. -/
theorem countP_visit :
    (tree.visit depth path location above).countP isMiss =
      (tree.visitPast isHidden depth path location above).countP isMiss +
        (tree.straysWithin depth path location above).length := by
  induction depth generalizing path location above with
  | zero => rfl
  | succ depth ih =>
    rw [visit_succ, visitPast, straysWithin]
    cases tree.isBarred location with
    | true => rfl
    | false =>
      rw [if_neg Bool.false_ne_true, if_neg Bool.false_ne_true, if_neg Bool.false_ne_true]
      induction tree.children location with
      | nil => rfl
      | cons child rest ihRest =>
        rw [List.flatMap_cons, List.flatMap_cons, List.flatMap_cons, List.countP_append,
          List.countP_append, List.length_append, ihRest, Nat.add_add_add_comm,
          Nat.add_right_cancel_iff]
        cases tree.behind? (path.join child.1) location (location :: above) child.1 child.2 with
        | none =>
          rw [Option.elim_none, Option.elim_none, Option.elim_none]
          cases isHidden child.1 <;> rfl
        | some found =>
          rw [Option.elim_some, Option.elim_some, Option.elim_some]
          cases isHidden child.1 with
          | true => rfl
          | false =>
            cases found.2 with
            | true => rfl
            | false => exact ih _ _ _

/-- Walks that pass over the same of the names in a tree come across the same. -/
theorem visitPast_congr {passed passed' : Name → Bool}
    (h : ∀ e ∈ tree.entries, ∀ name ∈ e.1.getLast?, passed name = passed' name) :
    tree.visitPast passed depth path location above =
      tree.visitPast passed' depth path location above := by
  induction depth generalizing path location above with
  | zero => rfl
  | succ depth ih =>
    rw [visitPast, visitPast]
    congr 1
    refine List.flatMap_congr fun child hchild => ?_
    obtain ⟨e, he, hname⟩ := exists_of_mem_children hchild
    simp only [h e he child.1 hname, ih]

/-- Whatever is hidden and still counts is a link. -/
theorem exists_of_mem_straysWithin {stray : Path}
    (h : stray ∈ tree.straysWithin depth path location above) :
    ∃ directory place name target, stray = Path.join directory name ∧ isHidden name = true ∧
      (name, Entry.link target) ∈ tree.children place := by
  induction depth generalizing path location above with
  | zero => cases h
  | succ depth ih =>
    rw [straysWithin] at h
    split at h
    · cases h
    · obtain ⟨child, hchild, hmem⟩ := List.mem_flatMap.mp h
      cases hbehind : tree.behind? (path.join child.1) location (location :: above) child.1 child.2 with
      | none =>
        rw [hbehind, Option.elim_none] at hmem
        split at hmem
        · rename_i hhidden
          have hlink : ∃ target, child.2 = .link target := by
            cases hentry : child.2 with
            | file content modified => rw [hentry] at hbehind; cases hbehind
            | directory => rw [hentry] at hbehind; cases hbehind
            | link target => exact ⟨target, rfl⟩
          obtain ⟨target, htarget⟩ := hlink
          exact ⟨path, location, child.1, target, List.mem_singleton.mp hmem, hhidden, htarget ▸ hchild⟩
        · cases hmem
      | some found =>
        rw [hbehind, Option.elim_some] at hmem
        split at hmem
        · cases hmem
        · exact ih _ _ _ hmem

theorem exists_names_of_mem_visitPast {passed : Name → Bool} {file : Path}
    (h : Visit.file file ∈ tree.visitPast passed depth path location above) :
    ∃ names : List Name, (∀ name ∈ names, passed name = false) ∧
      file = names.foldl Path.join path := by
  induction depth generalizing path location above with
  | zero => cases h
  | succ depth ih =>
    rw [visitPast] at h
    split at h
    · cases List.mem_singleton.mp h
    · obtain ⟨child, -, hmem⟩ := List.mem_flatMap.mp h
      split at hmem
      · cases hmem
      · rename_i hvisible
        rw [Bool.not_eq_true] at hvisible
        cases hbehind : tree.behind? (path.join child.1) location (location :: above) child.1 child.2 with
        | none =>
          rw [hbehind, Option.elim_none, List.mem_singleton] at hmem
          cases hmem
        | some found =>
          rw [hbehind, Option.elim_some] at hmem
          split at hmem
          · obtain rfl := Visit.file.inj (List.mem_singleton.mp hmem)
            exact ⟨[child.1], List.forall_mem_singleton.mpr hvisible, rfl⟩
          · obtain ⟨names, hnames, rfl⟩ := ih _ _ _ hmem
            exact ⟨child.1 :: names, List.forall_mem_cons.mpr ⟨hvisible, hnames⟩, rfl⟩

end Visits

/-! ### Whole walks -/

section Walks

variable (tree : FileTree) (root : Path)

theorem filterMap_walk {α : Type} {keep : Visit → Option α}
    (hkeep : ∀ path, keep (.unreadable path) = none) :
    (tree.walk root).filterMap keep = (tree.walkPast isHidden root).filterMap keep := by
  rw [walk, walkPast]
  cases tree.resolve root with
  | error cause => rfl
  | ok location => exact tree.filterMap_visit _ _ _ _ hkeep

theorem countP_walk :
    (tree.walk root).countP isMiss =
      (tree.walkPast isHidden root).countP isMiss + (tree.strays root).length := by
  rw [walk, walkPast, strays]
  cases tree.resolve root with
  | error cause => rfl
  | ok location => exact tree.countP_visit _ _ _ _

theorem exists_of_mem_strays {stray : Path} (h : stray ∈ tree.strays root) :
    ∃ directory place name target, stray = Path.join directory name ∧ isHidden name = true ∧
      (name, Entry.link target) ∈ tree.children place := by
  rw [strays] at h
  split at h
  · exact tree.exists_of_mem_straysWithin _ _ _ _ h
  · cases h

theorem exists_names_of_mem_walkPast {passed : Name → Bool} {file : Path}
    (h : Visit.file file ∈ tree.walkPast passed root) :
    ∃ names : List Name, (∀ name ∈ names, passed name = false) ∧
      file = names.foldl Path.join root := by
  rw [walkPast] at h
  split at h
  · exact tree.exists_names_of_mem_visitPast _ _ _ _ h
  · cases h

theorem walkPast_congr {passed passed' : Name → Bool}
    (h : ∀ e ∈ tree.entries, ∀ name ∈ e.1.getLast?, passed name = passed' name) :
    tree.walkPast passed root = tree.walkPast passed' root := by
  rw [walkPast, walkPast]
  cases tree.resolve root with
  | error cause => rfl
  | ok location => exact tree.visitPast_congr _ _ _ _ h

end Walks

end FileTree

end Files

namespace Import

def scanAlong (store : Store) (files : FileTree) (clock : Nat → Timestamp) (root : Path)
    (visits : List Visit) : Store × Except ScanError ScanReport :=
  if files.isDirectory root then
    let taken := takeInAll store files clock (visits.filterMap (source? files))
    (taken.1, .ok { taken.2 with failed := taken.2.failed + visits.countP isMiss })
  else (store, .error (.notDirectory root))

theorem scan_eq_scanAlong (store : Store) (files : FileTree) (clock : Nat → Timestamp)
    (root : Path) :
    scan store files clock root = scanAlong store files clock root (files.walk root) := rfl

/-- How hidden entries show in a scan. -/
structure ShowsStrays (store : Store) (files : FileTree) (clock : Nat → Timestamp) (root : Path) :
    Prop where
  -- What is stored is what is stored where names are looked at first,
  stored : (scan store files clock root).1 =
    (scanAlong store files clock root (files.walkPast isHidden root)).1
  -- and in the report the strays are counted as failures.
  reported : (scan store files clock root).2 =
    (scanAlong store files clock root (files.walkPast isHidden root)).2.map fun report =>
      { report with failed := report.failed + (files.strays root).length }
  -- Hidden are the names that start with a point and are texts,
  hidden : ∀ name, isHidden name = true ↔ isDotted name = true ∧ name.text?.isSome
  -- so that all names that start with a point are passed over where they are texts.
  dotted : (∀ e ∈ files.entries, ∀ name ∈ e.1.getLast?, isDotted name = true → name.text?.isSome) →
    files.walkPast isHidden root = files.walkPast isDotted root
  -- No file behind a hidden name is among those to be stored.
  visible : ∀ path ∈ sources files root, ∃ names : List Name,
    (∀ name ∈ names, isHidden name = false) ∧ path = names.foldl Path.join root
  -- Only hidden links are strays.
  links : ∀ stray ∈ files.strays root, ∃ directory place name target,
    stray = Path.join directory name ∧ isHidden name = true ∧
      (name, Entry.link target) ∈ files.children place
  -- Hidden entries do not show at all exactly if there are no strays.
  invisible : scan store files clock root =
      scanAlong store files clock root (files.walkPast isHidden root) ↔
    files.isDirectory root = true → files.strays root = []

theorem sources_eq (files : FileTree) (root : Path) :
    sources files root = (files.walkPast isHidden root).filterMap (source? files) :=
  files.filterMap_walk root fun _ => rfl

/-- A scan is one that passes over hidden entries by their names, but that it counts the hidden links that it
cannot follow. -/
theorem scan_showsStrays (store : Store) (files : FileTree) (clock : Nat → Timestamp)
    (root : Path) : ShowsStrays store files clock root := by
  have hfiles : (files.walk root).filterMap (source? files) =
      (files.walkPast isHidden root).filterMap (source? files) := sources_eq files root
  have hmissed := files.countP_walk root
  constructor
  case stored =>
    rw [scan_eq_scanAlong, scanAlong, scanAlong, hfiles]
    cases files.isDirectory root <;> rfl
  case reported =>
    rw [scan_eq_scanAlong, scanAlong, scanAlong, hfiles, hmissed]
    cases files.isDirectory root with
    | false => rfl
    | true => simp only [if_true, Except.map, Nat.add_assoc]
  case hidden =>
    intro name
    rw [isHidden_eq, Bool.and_eq_true]
  case dotted =>
    intro htexts
    refine files.walkPast_congr root fun e he name hname => ?_
    rw [isHidden_eq]
    cases hdotted : isDotted name with
    | false => rfl
    | true => exact htexts e he name hname hdotted
  case visible =>
    intro path hpath
    rw [sources_eq] at hpath
    obtain ⟨visit, hvisit, hsource⟩ := List.mem_filterMap.mp hpath
    obtain ⟨rfl, -⟩ := source?_eq_some_iff.mp hsource
    exact files.exists_names_of_mem_walkPast root hvisit
  case links => exact fun _ hstray => files.exists_of_mem_strays root hstray
  case invisible =>
    rw [scan_eq_scanAlong, scanAlong, scanAlong, hfiles, hmissed]
    cases files.isDirectory root with
    | false => exact iff_of_true rfl fun h => by cases h
    | true =>
      rw [if_pos rfl, if_pos rfl, Prod.mk.injEq, Except.ok.injEq, ScanReport.mk.injEq]
      simp [← Nat.add_assoc]

/-- A hidden link to nowhere is reported as a failure, and a file is stored whose name starts with a point but
is no text. -/
theorem dotted_entries_count :
    ((scan (Store.ofTables {} {}) ⟨[(["r"], .directory), (["r", ".gone"], .link "nowhere")]⟩
        (fun _ => "") "r").2 = .ok ⟨0, 0, 1⟩ ∧ isDotted ".gone" = true) ∧
      (scan (Store.ofTables {} {}) ⟨[(["r"], .directory), (["r", ⟨[46, 0xFF]⟩], .file (.sound [120]) 0)]⟩
        (fun _ => "") "r").2 = .ok ⟨1, 1, 0⟩ ∧ isDotted ⟨[46, 0xFF]⟩ = true := by
  decide +kernel

end Import

end Catalog
