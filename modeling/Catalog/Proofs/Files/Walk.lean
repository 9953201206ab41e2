import Catalog.Files.Walk
import Catalog.Proofs.Files.Tree

/-! Walks. The files that a walk comes across are files by their paths, and where it comes across one it
comes across all files beside it that are not hidden. -/

namespace Catalog.Files

open Catalog.Text

/-- A name is hidden if its first byte is a point and its bytes spell a text. -/
theorem isHidden_iff {name : Name} :
    isHidden name = true ↔ name.text?.isSome ∧ name.bytes.head? = some point := by
  rw [isHidden]
  cases htext : name.text? with
  | none => simp
  | some text =>
    have hbytes : name.bytes.head? = some point ↔ text.toList.head? = some '.' := by
      rw [RawText.text?_eq_some_iff.mp htext, RawText.bytes_ofText]
      exact head?_utf8_eq_iff (by decide)
    rw [hbytes, Option.any_some, Option.isSome_some]
    cases text.toList with
    | nil => simp
    | cons c rest => simp [eq_comm (a := c)]

namespace FileTree

theorem visit_succ (tree : FileTree) (depth : Nat) (path : Path) (location : Location)
    (above : List Location) :
    tree.visit (depth + 1) path location above =
      if tree.isBarred location then [.unreadable path]
      else
        (tree.children location).flatMap fun child =>
          (tree.behind? (path.join child.1) location (location :: above) child.1 child.2).elim
            [.unreadable (path.join child.1)] fun found =>
              if isHidden child.1 then []
              else if found.2 then [.file (path.join child.1)]
              else tree.visit depth (path.join child.1) found.1 (location :: above) := by
  rw [visit]
  congr 2
  funext child
  obtain ⟨name, entry⟩ := child
  dsimp only
  cases tree.behind? (path.join name) location (location :: above) name entry <;> rfl

variable {tree : FileTree} {path : Path} {location place : Location} {name : Name} {entry : Entry}
  {barred : Bool} {within above : List Location}

/-! ### Entries of a directory -/

theorem behind?_eq_some (h : tree.WellFormed) (hpath : tree.resolve path = .ok location)
    (hdirectory : tree.at? location = some (.directory barred))
    (hchild : (name, entry) ∈ tree.children location) {isFile : Bool}
    (hbehind : tree.behind? (path.join name) location within name entry = some (place, isFile)) :
    tree.resolve (path.join name) = .ok place ∧
      if isFile then ∃ content modified, tree.at? place = some (.file content modified)
      else ∃ barred, tree.at? place = some (.directory barred) := by
  obtain ⟨hname, hentry⟩ := (mem_children_iff h).mp hchild
  have hreach : (∀ target, entry ≠ .link target) →
      tree.resolve (path.join name) = .ok (location ++ [name]) := by
    intro hlink
    obtain ⟨left, hleft⟩ := resolve_join hpath hdirectory
    rw [hleft name hname, resolveWithin_name left hname (by simpa [hentry] using hlink), hentry]
    rfl
  cases entry with
  | file content modified =>
    cases hbehind
    exact ⟨hreach (by simp), content, modified, hentry⟩
  | directory =>
    cases hbehind
    exact ⟨hreach (by simp), _, hentry⟩
  | link target =>
    unfold behind? at hbehind
    dsimp only at hbehind
    split at hbehind
    · cases hbehind
    · rename_i found hresolve
      split at hbehind
      · rename_i content modified hfile
        cases hbehind
        exact ⟨hresolve, content, modified, hfile⟩
      · rename_i hfound
        split at hbehind
        · cases hbehind
        · cases hbehind
          exact ⟨hresolve, _, hfound⟩
      · cases hbehind

/-- A file by its path is one that the walk finds behind its entry. -/
theorem exists_behind? (within : List Location) (h : tree.WellFormed)
    (hpath : tree.resolve path = .ok location) (hdirectory : tree.at? location = some (.directory barred))
    (hname : name.Proper) (hfile : tree.isFile (path.join name) = true) :
    ∃ entry place, (name, entry) ∈ tree.children location ∧
      tree.behind? (path.join name) location within name entry = some (place, true) := by
  obtain ⟨place, content, modified, hresolve, hplace⟩ := isFile_iff.mp hfile
  obtain ⟨left, hleft⟩ := resolve_join hpath hdirectory
  cases hentry : tree.at? (location ++ [name]) with
  | none =>
    rw [hleft name hname, resolveWithin_name left hname (by simp [hentry]), hentry] at hresolve
    cases hresolve
  | some entry =>
    have hchild := (mem_children_iff h).mpr ⟨hname, hentry⟩
    cases entry with
    | file content modified => exact ⟨_, _, hchild, rfl⟩
    | directory =>
      rw [hleft name hname, resolveWithin_name left hname (by simp [hentry]), hentry] at hresolve
      rw [← Except.ok.inj hresolve, hentry] at hplace
      cases hplace
    | link target => exact ⟨_, place, hchild, by rw [behind?, hresolve]; simp [hplace]⟩

/-! ### Files that are reached -/

/-- A file that is come across lies behind an entry that is not hidden, or below one. -/
theorem file_mem_visit_iff {depth : Nat} {file : Path} :
    Visit.file file ∈ tree.visit (depth + 1) path location above ↔
      tree.isBarred location = false ∧
        ∃ name entry place isFile, (name, entry) ∈ tree.children location ∧
          tree.behind? (path.join name) location (location :: above) name entry = some (place, isFile) ∧
          isHidden name = false ∧
          if isFile then file = path.join name
          else Visit.file file ∈ tree.visit depth (path.join name) place (location :: above) := by
  rw [visit_succ]
  cases hbarred : tree.isBarred location with
  | true => simp
  | false =>
    rw [if_neg Bool.false_ne_true, List.mem_flatMap, eq_self, true_and]
    constructor
    · rintro ⟨⟨name, entry⟩, hchild, hmem⟩
      dsimp only at hmem
      cases hbehind : tree.behind? (path.join name) location (location :: above) name entry with
      | none => simp [hbehind] at hmem
      | some found =>
        obtain ⟨place, isFile⟩ := found
        rw [hbehind, Option.elim_some] at hmem
        split at hmem
        · cases hmem
        · rename_i hvisible
          refine ⟨name, entry, place, isFile, hchild, hbehind, by simpa using hvisible, ?_⟩
          cases isFile with
          | true => exact Visit.file.inj (List.mem_singleton.mp hmem)
          | false => exact hmem
    · rintro ⟨name, entry, place, isFile, hchild, hbehind, hvisible, hfile⟩
      refine ⟨(name, entry), hchild, ?_⟩
      cases isFile with
      | true => simpa [hbehind, hvisible] using hfile
      | false => simpa [hbehind, hvisible] using hfile

theorem exists_of_mem_visit (h : tree.WellFormed) {depth : Nat} (hpath : tree.resolve path = .ok location)
    (hdirectory : tree.at? location = some (.directory barred)) {file : Path}
    (hfile : Visit.file file ∈ tree.visit depth path location above) :
    ∃ (directory : Path) (name : Name), file = directory.join name ∧ name.Proper ∧
      isHidden name = false ∧ tree.isFile file = true ∧
      ∀ other, other.Proper → isHidden other = false → tree.isFile (directory.join other) = true →
        Visit.file (directory.join other) ∈ tree.visit depth path location above := by
  induction depth generalizing path location barred above with
  | zero => cases hfile
  | succ depth ih =>
    obtain ⟨hlisted, name, entry, place, isFile, hchild, hbehind, hvisible, hfile⟩ :=
      file_mem_visit_iff.mp hfile
    obtain ⟨hresolve, hplace⟩ := behind?_eq_some h hpath hdirectory hchild hbehind
    simp only [file_mem_visit_iff]
    cases isFile with
    | true =>
      obtain ⟨content, modified, hentry⟩ := hplace
      refine ⟨path, name, hfile, ((mem_children_iff h).mp hchild).1, hvisible, ?_, ?_⟩
      · rw [hfile]
        exact isFile_iff.mpr ⟨place, content, modified, hresolve, hentry⟩
      · intro other hother hotherVisible hotherFile
        obtain ⟨otherEntry, otherPlace, hotherChild, hotherBehind⟩ :=
          exists_behind? (location :: above) h hpath hdirectory hother hotherFile
        exact ⟨hlisted, other, otherEntry, otherPlace, true, hotherChild, hotherBehind, hotherVisible, rfl⟩
    | false =>
      obtain ⟨_, hdirectory'⟩ := hplace
      obtain ⟨directory, last, hlast, hname, hlastVisible, hlastFile, hbeside⟩ :=
        ih hresolve hdirectory' hfile
      refine ⟨directory, last, hlast, hname, hlastVisible, hlastFile, ?_⟩
      intro other hother hotherVisible hotherFile
      exact ⟨hlisted, name, entry, place, false, hchild, hbehind, hvisible,
        hbeside other hother hotherVisible hotherFile⟩

/-- The names of all entries are texts. -/
def NamedByTexts (tree : FileTree) : Prop :=
  ∀ e ∈ tree.entries, ∀ name ∈ e.1.getLast?, name.text?.isSome = true

instance NamedByTexts.decidable (tree : FileTree) : Decidable tree.NamedByTexts :=
  inferInstanceAs (Decidable (∀ e ∈ tree.entries, ∀ name ∈ e.1.getLast?, name.text?.isSome = true))

theorem exists_of_mem_children {child : Name × Entry} (h : child ∈ tree.children location) :
    ∃ e ∈ tree.entries, child.1 ∈ e.1.getLast? := by
  obtain ⟨⟨place, found⟩, hmem, hchild⟩ := List.mem_filterMap.mp h
  dsimp only at hchild
  split at hchild
  · rename_i last hlast
    split at hchild
    · cases hchild
      exact ⟨_, hmem, hlast⟩
    · cases hchild
  · cases hchild

/-- What a walk comes across below a directory has a text for its path, if the directory and all entries
have. -/
theorem NamedByTexts.of_mem_visit (h : tree.NamedByTexts) (hpath : path.text?.isSome) {depth : Nat}
    {file : Path} (hfile : Visit.file file ∈ tree.visit depth path location above) :
    file.text?.isSome := by
  induction depth generalizing path location above with
  | zero => cases hfile
  | succ depth ih =>
    obtain ⟨-, name, entry, place, isFile, hchild, -, -, hfile⟩ := file_mem_visit_iff.mp hfile
    obtain ⟨e, he, hname⟩ := exists_of_mem_children hchild
    have hjoin := Path.isSome_text?_join hpath (h e he name hname)
    cases isFile with
    | true => rwa [show file = path.join name from hfile]
    | false => exact ih hjoin hfile

/-- A walk comes across a file. -/
def Reaches (tree : FileTree) (root file : Path) : Prop := Visit.file file ∈ tree.walk root

instance Reaches.decidable (tree : FileTree) (root file : Path) : Decidable (tree.Reaches root file) :=
  inferInstanceAs (Decidable (Visit.file file ∈ tree.walk root))

theorem exists_of_reaches (h : tree.WellFormed) {root file : Path} (hroot : tree.isDirectory root = true)
    (hfile : tree.Reaches root file) :
    ∃ (directory : Path) (name : Name), file = directory.join name ∧ name.Proper ∧
      isHidden name = false ∧ tree.isFile file = true ∧
      ∀ other, other.Proper → isHidden other = false → tree.isFile (directory.join other) = true →
        tree.Reaches root (directory.join other) := by
  obtain ⟨location, _, hresolve, hdirectory⟩ := isDirectory_iff.mp hroot
  have hwalk : tree.walk root = tree.visit tree.deepest root location [] := by
    rw [walk, hresolve]
  rw [Reaches, hwalk] at hfile
  simp only [Reaches, hwalk]
  exact exists_of_mem_visit h hresolve hdirectory hfile

theorem NamedByTexts.of_reaches (h : tree.NamedByTexts) {root file : Path} (hroot : root.text?.isSome)
    (hfile : tree.Reaches root file) : file.text?.isSome := by
  rw [Reaches, walk] at hfile
  split at hfile
  · exact h.of_mem_visit hroot hfile
  · cases hfile

end FileTree

end Catalog.Files
