import Catalog.Proofs.Store.Contents
import Catalog.Proofs.Store.Dossier

/-! Files of a catalog do not affect each other: a step that is about one file leaves all that can be
read of every other file as it is. Of its own file an upsert without hashes leaves the hashes, and one
without a favorite leaves the favorite. -/

namespace Catalog

open Catalog.Files Catalog.Order

/-- Hashes are merged by their algorithms: the given ones go first. -/
theorem get?_mergedHashes (id : FileId) (given : List (String × String)) (rows : List HashRow)
    (algorithm : String) :
    get? algorithm
        (keyed ((mergedHashes id (some given) rows).map fun row => (row.algorithm, row.hash))) =
      (get? algorithm (keyed given)).or
        (get? algorithm (keyed (rows.map fun row => (row.algorithm, row.hash)))) := by
  have hkept : (rows.filter fun row => !given.any fun hash => hash.1 == row.algorithm).map
      (fun row => (row.algorithm, row.hash)) =
        (rows.map fun row => (row.algorithm, row.hash)).filter fun e =>
          !given.any fun hash => hash.1 == e.1 := by
    rw [List.filter_map]
    rfl
  rw [get?_keyed, mergedHashes, List.map_append, map_hashRows, hkept, List.reverse_append, get?_append,
    ← get?_keyed, (ascending_keyed given).keyed_eq, get?_keyed algorithm (rows.map _)]
  cases hfound : get? algorithm (keyed given) with
  | some hash => rfl
  | none =>
    have hnot : algorithm ∉ given.map (·.1) := by
      rwa [get?_eq_none_iff, mem_map_fst_keyed] at hfound
    rw [Option.none_or, Option.none_or, ← List.filter_reverse]
    refine get?_filter fun e _ he => ?_
    rw [Bool.not_eq_true', List.any_eq_false]
    intro hash hmem hsame
    exact hnot (List.mem_map.mpr ⟨hash, hmem, (beq_iff_eq.mp hsame).trans he⟩)

/-- The file that a step is about. A path that is not stored gets the next id. -/
def Step.subject? (store : Store) : Step → Option FileId
  | upsert _ _ path _ _ _ => some (((store.fileAt? path).map (·.id)).getD store.tables.nextFile)
  | delete path => (store.fileAt? path).map (·.id)
  | toggleFavorite _ id _ _ => some id
  | reopen _ => none

namespace Store

/-- What the steps of a catalog leave alone. -/
structure Isolated (store : Store) : Prop where
  /-- Whatever the result of a step, files that it is not about are not affected. -/
  others (step : Step) (id : FileId) (h : step.subject? store ≠ some id) :
    store.Unaffected (step.run store) id
  /-- Hashes that are given take the place of those under the same algorithms, and others stay. -/
  hashes {files : FileTree} {now : Timestamp} {path : Path} {document : Json.Value}
    {given : List (String × String)} {favorite : Option FavoriteInput} {store' : Store} {id : FileId}
    (hok : store.upsert files now path document (some given) favorite = (store', .ok id))
    (algorithm : String) :
    get? algorithm (store'.hashes id) =
      (get? algorithm (keyed given)).or (get? algorithm (store.hashes id))
  noHashes {files : FileTree} {now : Timestamp} {path : Path} {document : Json.Value}
    {favorite : Option FavoriteInput} {store' : Store} {id : FileId}
    (hok : store.upsert files now path document none favorite = (store', .ok id)) :
    (store'.tables.dossier id).hashes = (store.tables.dossier id).hashes
  noFavorite {files : FileTree} {now : Timestamp} {path : Path} {document : Json.Value}
    {hashes : Option (List (String × String))} {store' : Store} {id : FileId}
    (hok : store.upsert files now path document hashes none = (store', .ok id)) :
    (store'.tables.dossier id).favorites = (store.tables.dossier id).favorites
  toggled (now : Timestamp) (id : FileId) (notes : Option String) (tags : List String) :
    (store.toggleFavorite now id notes tags).1.tables.dossier id =
      { store.tables.dossier id with
        favorites := ((store.toggleFavorite now id notes tags).1.tables.dossier id).favorites }

variable {store store' : Store} {files : FileTree} {now : Timestamp} {path : Path}
  {document : Json.Value} {hashes : Option (List (String × String))}
  {favorite : Option FavoriteInput} {id : FileId}

theorem subject?_upsert (hok : store.upsert files now path document hashes favorite = (store', .ok id)) :
    (Step.upsert files now path document hashes favorite).subject? store = some id := by
  obtain ⟨seen, stored, time, hashRows, favoriteRows, hstored, -⟩ := upsert_stored hok
  exact congrArg some hstored.id_eq.symm

theorem upsert_dossier (hok : store.upsert files now path document hashes favorite = (store', .ok id)) :
    (∀ other ≠ id, store'.tables.dossier other = store.tables.dossier other) ∧
      (store'.tables.dossier id).hashes = mergedHashes id hashes (store.tables.dossier id).hashes ∧
      ∃ time, (store'.tables.dossier id).favorites =
        notedFavorites id time favorite (store.tables.dossier id).favorites := by
  obtain ⟨seen, -, hupsert, -⟩ := upsert_ok hok
  obtain ⟨hothers, stored, time, -, hown⟩ := Tables.upsert_dossier hupsert
  exact ⟨hothers, by rw [hown], time, by rw [hown]⟩

theorem toggleFavorite_dossier (store : Store) (now : Timestamp) (id : FileId) (notes : Option String)
    (tags : List String) :
    (∀ other ≠ id,
        (store.toggleFavorite now id notes tags).1.tables.dossier other = store.tables.dossier other) ∧
      (store.toggleFavorite now id notes tags).1.tables.dossier id =
        { store.tables.dossier id with
          favorites := ((store.toggleFavorite now id notes tags).1.tables.dossier id).favorites } :=
  commit_keeps
    (p := fun tables => (∀ other ≠ id, tables.dossier other = store.tables.dossier other) ∧
      tables.dossier id =
        { store.tables.dossier id with favorites := (tables.dossier id).favorites })
    ⟨fun _ _ => rfl, rfl⟩ fun _ _ hchange => Tables.toggleFavorite_dossier hchange

theorem unaffected_run (step : Step) (h : step.subject? store ≠ some id) :
    store.Unaffected (step.run store) id := by
  apply Unaffected.of_dossier
  cases step with
  | upsert files now path document hashes favorite =>
    rw [Step.run]
    cases hresult : store.upsert files now path document hashes favorite with
    | mk next result =>
      cases result with
      | error cause => rw [upsert_error hresult]
      | ok subject =>
        rw [subject?_upsert hresult] at h
        exact (upsert_dossier hresult).1 id fun heq => h (congrArg some heq.symm)
  | delete path =>
    rw [Step.run, delete]
    split
    · rename_i file hfile
      have hne : id ≠ file.id := by
        rintro rfl
        exact h (congrArg (Option.map fun file : FileRecord => file.id) hfile)
      rw [Tables.dossier_eraseFile, if_neg hne]
    · rfl
  | toggleFavorite now subject notes tags =>
    exact (store.toggleFavorite_dossier now subject notes tags).1 id fun heq =>
      h (congrArg some heq.symm)
  | reopen settings => exact Tables.dossier_complete store.tables id

/-- In every catalog, whatever led to it, steps are isolated. -/
theorem isolated (store : Store) : store.Isolated where
  others step id h := unaffected_run step h
  hashes {files now path document given favorite store' id} hok algorithm := by
    show get? algorithm (store'.tables.hashesOf id) = _
    rw [Tables.hashesOf_eq, (upsert_dossier hok).2.1, get?_mergedHashes, ← Tables.hashesOf_eq]
    rfl
  noHashes hok := (upsert_dossier hok).2.1
  noFavorite hok := by
    obtain ⟨-, -, time, hfavorites⟩ := upsert_dossier hok
    exact hfavorites
  toggled now id notes tags := (store.toggleFavorite_dossier now id notes tags).2

set_option maxRecDepth 2000 in
/-- One of two files is stored again with a hash: the other one keeps its hash and its favorite, and so
does the file itself under the other algorithm. -/
theorem isolated_beside_favorite :
    let files : FileTree := ⟨[(["a"], .file (.sound [1]) 0), (["b"], .file (.sound [2]) 0)]⟩
    let document : Json.Value := .object [("c", .object [("k", .string "x")])]
    let favorite : FavoriteInput := ⟨some "n", ["t"]⟩
    let store := (ofTables {} {}).after
      [.single (.upsert files "5" "a" document (some [("p", "1"), ("q", "2")]) (some favorite)),
       .single (.upsert files "6" "b" document (some [("p", "3")]) (some favorite))]
    let again : Step := .upsert files "7" "a" (.object []) (some [("q", "9")]) none
    let done := store.upsert files "7" "a" (.object []) (some [("q", "9")]) none
    (store.Reachable ∧ again.subject? store ≠ some 2 ∧ done = (done.1, .ok 1)) ∧
      store.Unaffected (again.run store) 2 ∧
      get? "p" (done.1.hashes 1) = (get? "p" (keyed [("q", "9")])).or (get? "p" (store.hashes 1)) ∧
      (done.1.tables.dossier 1).favorites = (store.tables.dossier 1).favorites ∧
      (done.1.hashes 1, done.1.hashes 2) = ([("p", "1"), ("q", "9")], [("p", "3")]) ∧
      (done.1.tables.dossier 1).favorites = [⟨1, "5", some "n", "[\"t\"]"⟩] := by
  intro files document favorite store again done
  have hreachable : store.Reachable := (Reachable.opened {}).after _
  have hother : again.subject? store ≠ some 2 := by decide +kernel
  have hok : done.2 = .ok 1 := by decide +kernel
  have hdone : done = (done.1, .ok 1) := by rw [← hok]
  have hisolated := store.isolated
  exact ⟨⟨hreachable, hother, hdone⟩, hisolated.others again 2 hother, hisolated.hashes hdone "p",
    hisolated.noFavorite hdone, by decide +kernel⟩

end Store

end Catalog
