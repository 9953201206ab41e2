import Catalog.Proofs.Store.Favorites
import Catalog.Proofs.Store.Sizes
import Mathlib.Data.List.Dedup
import Catalog.Proofs.Text.Raw

/-! The views of a catalog agree: its totals, the list of all its files, look-ups of single files and the
list of favorites are about the same files. -/

namespace Catalog

open Catalog.Files Catalog.Order Catalog.Query

/-! ### Sums and counts -/

namespace Order

theorem total_eq_of_perm {ns ms : List Nat} (h : ns.Perm ms) : total ns = total ms := by
  induction h with
  | nil => rfl
  | cons n _ ih => rw [total, total, ih]
  | swap n m rest => exact Nat.add_left_comm _ _ _
  | trans _ _ ih ih' => rw [ih, ih']

/-- What is put under a key counts in place of what was there. -/
theorem total_put (key : String) (value : Nat) {entries : List (String × Nat)} (h : Ascending entries) :
    total ((put key value entries).map (·.2)) + (get? key entries).getD 0 =
      total (entries.map (·.2)) + value := by
  induction entries with
  | nil => simp [put, total]
  | cons e rest ih =>
    obtain ⟨k, v⟩ := e
    obtain ⟨hk, hrest⟩ := List.pairwise_cons.mp h
    rw [put]
    split
    · -- The keys ascend, so that the new one does not occur.
      rename_i hlt
      have hnone : get? key ((k, v) :: rest) = none := by
        rw [get?_eq_none_iff]
        intro hmem
        obtain ⟨e, he, heq⟩ := List.mem_map.mp hmem
        rcases List.mem_cons.mp he with rfl | he
        · exact irrefl_of (· < ·) key (heq ▸ hlt)
        · exact irrefl_of (· < ·) key (trans_of (· < ·) hlt (heq ▸ hk e he))
      rw [hnone]
      simp only [List.map_cons, total, Option.getD_none]
      omega
    · split
      · rename_i heq
        rw [get?_cons, if_pos heq.symm]
        simp only [List.map_cons, total, Option.getD_some]
        omega
      · rename_i hne
        have hlater := ih hrest
        rw [get?_cons, if_neg (Ne.symm hne)]
        simp only [List.map_cons, total]
        omega

end Order

namespace Tables

theorem tally_concat (texts : List String) (text : String) :
    tally (texts ++ [text]) = put text ((get? text (tally texts)).getD 0 + 1) (tally texts) :=
  List.foldl_concat ..

theorem ascending_tally (texts : List String) : Ascending (tally texts) := by
  induction texts using List.reverseRecOn with
  | nil => exact .nil
  | append_singleton texts text ih =>
    rw [tally_concat]
    exact ih.put _ _

theorem getD_get?_tally (texts : List String) (text : String) :
    (get? text (tally texts)).getD 0 = texts.count text := by
  induction texts using List.reverseRecOn with
  | nil => rfl
  | append_singleton texts last ih =>
    rw [tally_concat, List.count_append, List.count_singleton]
    by_cases h : text = last
    · subst h
      rw [get?_put_self, Option.getD_some, ih, beq_self_eq_true, if_pos rfl]
    · rw [get?_put_of_ne h, ih, if_neg (by simpa using Ne.symm h), Nat.add_zero]

theorem total_tally (texts : List String) : total ((tally texts).map (·.2)) = texts.length := by
  induction texts using List.reverseRecOn with
  | nil => rfl
  | append_singleton texts text ih =>
    have hput := total_put text ((get? text (tally texts)).getD 0 + 1) (ascending_tally texts)
    rw [tally_concat, List.length_append, List.length_singleton]
    omega

theorem mem_map_fst_tally {texts : List String} {text : String} :
    text ∈ (tally texts).map (·.1) ↔ text ∈ texts := by
  induction texts using List.reverseRecOn with
  | nil => rfl
  | append_singleton texts last ih =>
    rw [tally_concat, ← not_iff_not, ← get?_eq_none_iff]
    by_cases h : text = last
    · simp [h, get?_put_self]
    · simp [get?_put_of_ne h, get?_eq_none_iff, ih, h]

theorem length_tally (texts : List String) : (tally texts).length = texts.dedup.length := by
  have hperm : ((tally texts).map (·.1)).Perm texts.dedup := by
    rw [List.perm_ext_iff_of_nodup (ascending_tally texts).nodup texts.nodup_dedup]
    intro text
    rw [mem_map_fst_tally, List.mem_dedup]
  rw [← hperm.length_eq, List.length_map]

end Tables

/-! ### Totals -/

/-- The totals are those of the files in a list. -/
structure Stats.Describes (stats : Stats) (files : List FileRecord) : Prop where
  count : stats.totalFiles = files.length
  size : stats.totalSize = total (files.map (·.size))
  types : total (stats.byType.map (·.2)) = files.length
  ofType : ∀ type, (get? type stats.byType).getD 0 = (files.map (·.type)).count type
  contents : stats.distinctContent = (files.map (·.hash)).dedup.length

theorem Stats.Describes.of_perm {stats : Stats} {files files' : List FileRecord}
    (h : stats.Describes files) (hperm : files'.Perm files) : stats.Describes files' where
  count := h.count.trans hperm.length_eq.symm
  size := h.size.trans (total_eq_of_perm (hperm.map _)).symm
  types := h.types.trans hperm.length_eq.symm
  ofType type := (h.ofType type).trans ((hperm.map _).count_eq type).symm
  contents := h.contents.trans (hperm.map _).dedup.length_eq.symm

namespace Tables

variable {tables : Tables} {rows : List FavoriteRow}

theorem stats_eq (hfavorites : tables.favorites = some rows)
    (hsize : total (tables.files.map (·.size)) < Nat.pow 2 63) :
    tables.stats =
      { totalFiles := tables.files.length
        totalFavorites := rows.length
        totalSize := total (tables.files.map (·.size))
        byType := tally (tables.files.map (·.type))
        distinctContent := (tally (tables.files.map (·.hash))).length } := by
  rw [stats, hfavorites]
  exact if_neg (Nat.not_le_of_lt hsize)

theorem describes_stats (hfavorites : tables.favorites = some rows)
    (hsize : total (tables.files.map (·.size)) < Nat.pow 2 63) :
    tables.stats.Describes tables.files := by
  rw [stats_eq hfavorites hsize]
  exact
    { count := rfl
      size := rfl
      types := (total_tally _).trans (List.length_map _)
      ofType := getD_get?_tally _
      contents := length_tally _ }

/-- Every row of the favorites is listed, since its file is there. -/
theorem Consistent.length_allFavorites (h : tables.Consistent) :
    tables.allFavorites.length = (tables.favorites.getD []).length := by
  have hperm := sortBy_perm FavoriteRow.precedes (tables.favorites.getD [])
  rw [allFavorites, List.length_filterMap_eq_countP, hperm.countP_eq, List.countP_eq_length]
  intro row hrow
  obtain ⟨file, hfile⟩ := @Store.exists_file?_of_holds ⟨{}, tables⟩ _ (h.favoritesOwned row hrow)
  rw [Option.isSome_map, show tables.file? row.file = some file from hfile]
  rfl

end Tables

/-! ### Views -/

namespace Store

/-- The query that every file answers. -/
def everyFile : String := "size:>=0"

theorem predicates_everyFile (store : Store) :
    ∃ literal, store.predicates everyFile = [⟨.file .size, .ge, literal⟩] ∧
      ∀ bytes, (Operand.size bytes).compares .ge literal = true := by
  let zero : WrittenSize :=
    ⟨['0'], [], [], 0, by decide, by simp, by simp, by decide⟩
  have hquery : zero.query (some .ge) = everyFile := by decide +kernel
  have hbytes : zero.bytes = 0 := by decide +kernel
  have hlead : ∀ op ∈ some Operator.ge, op ∈ leadingOperators := by decide
  refine ⟨.number ⟨false, zero.bytes * Number.Double.one⟩, ?_, fun bytes => ?_⟩
  · rw [predicates, ← hquery, zero.compile_query hlead (by decide +kernel), Option.getD_some]
  · rw [Operand.compares_size rfl, accepts_whole_iff, hbytes]
    exact Int.natCast_nonneg bytes

/-- It finds all of them. -/
theorem files_search_everyFile (store : Store) {limit : Nat}
    (hlimit : store.tables.files.length ≤ limit) :
    (store.search everyFile limit 0).files.Perm store.tables.files := by
  obtain ⟨literal, hpredicates, hcompares⟩ := store.predicates_everyFile
  have hperm := store.matching_perm (.file .size) .ge literal
  rw [store.files_search_eq_matching _ hpredicates hlimit]
  simpa only [filesWith, FieldRef.operand?, Option.any_some, hcompares, List.filter_true] using hperm

/-- The views of a catalog are about the same files. -/
structure ViewsAgree (store : Store) : Prop where
  -- The totals are those of the files that are listed,
  totals : ∀ limit, store.stats.totalFiles ≤ limit →
    store.stats.Describes (store.search everyFile limit 0).files
  -- which are the files that are looked up, by path or by id,
  byPath : ∀ limit, store.stats.totalFiles ≤ limit → ∀ file,
    file ∈ (store.search everyFile limit 0).files ↔ ∃ path, store.fileAt? path = some file
  byId : ∀ limit, store.stats.totalFiles ≤ limit → ∀ file,
    file ∈ (store.search everyFile limit 0).files ↔ ∃ id, store.file? id = some file
  -- each listed once.
  once : ∀ limit, store.stats.totalFiles ≤ limit →
    ((store.search everyFile limit 0).files.map (·.path)).Nodup
  favorites : ∀ limit,
    (store.favorites limit).length = min limit store.stats.totalFavorites

/-- The views agree as long as the sizes can be added up and no one has taken the table of favorites
away. -/
theorem Reachable.views_agree {store : Store} (h : store.Reachable)
    (hfavorites : store.tables.favorites.isSome)
    (hsize : total (store.tables.files.map (·.size)) < Nat.pow 2 63) : store.ViewsAgree := by
  have hconsistent := h.consistent
  obtain ⟨rows, hrows⟩ := Option.isSome_iff_exists.mp hfavorites
  have hdescribes : store.stats.Describes store.tables.files := Tables.describes_stats hrows hsize
  have hlisted : ∀ limit, store.stats.totalFiles ≤ limit →
      (store.search everyFile limit 0).files.Perm store.tables.files := fun limit hlimit =>
    store.files_search_everyFile (hdescribes.count ▸ hlimit)
  constructor
  case totals => exact fun limit hlimit => hdescribes.of_perm (hlisted limit hlimit)
  case byPath =>
    intro limit hlimit file
    rw [(hlisted limit hlimit).mem_iff]
    constructor
    · exact fun hfile =>
        ⟨file.path, hconsistent.fileAt?_eq_some_iff.mpr ⟨hfile, (Text.RawText.text_ofText _).symm⟩⟩
    · rintro ⟨path, hfile⟩
      exact (Tables.mem_of_fileAt? hfile).1
  case byId =>
    intro limit hlimit file
    rw [(hlisted limit hlimit).mem_iff]
    constructor
    · exact fun hfile => ⟨file.id, hconsistent.file?_eq_some_iff.mpr ⟨hfile, rfl⟩⟩
    · rintro ⟨id, hfile⟩
      exact List.mem_of_find?_eq_some hfile
  case once =>
    intro limit hlimit
    exact ((hlisted limit hlimit).map _).nodup_iff.mpr hconsistent.paths
  case favorites =>
    intro limit
    have htotal : store.stats.totalFavorites = rows.length := by
      rw [stats, Tables.stats_eq hrows hsize]
    rw [favorites, List.length_take, hconsistent.length_allFavorites, hrows, Option.getD_some, htotal]

/-! ### Runs -/

theorem favorites_isSome_step {store : Store} (h : store.tables.favorites.isSome) (step : Step) :
    (step.run store).tables.favorites.isSome := by
  cases step with
  | upsert files now path document hashes favorite =>
    rw [Step.run]
    cases hresult : store.upsert files now path document hashes favorite with
    | mk next result =>
      cases result with
      | error cause => rwa [upsert_error hresult]
      | ok id =>
        obtain ⟨seen, -, hupsert, -⟩ := upsert_ok hresult
        obtain ⟨stored, time, -, -, hrows⟩ := Tables.upsert_favorites hupsert
        rcases hrows with ⟨-, hsame⟩ | ⟨input, rows, -, -, hnoted⟩
        · rwa [hsame]
        · rw [hnoted]
          rfl
  | delete path =>
    rw [Step.run, delete]
    split
    · rwa [Tables.eraseFile, Option.isSome_map]
    · exact h
  | toggleFavorite now id notes tags =>
    refine commit_keeps (p := fun tables => tables.favorites.isSome) h fun tables on hchange => ?_
    rcases Tables.toggleFavorite_ok hchange with rfl | ⟨-, ⟨rows, -, rfl⟩ | hset⟩
    · exact h
    · rfl
    · obtain ⟨rows, -, rfl⟩ := Tables.setFavorite_ok hset
      rfl
  | reopen settings => rfl

/-- No run takes the table of favorites away. -/
theorem favorites_isSome_after (settings : Settings) (operations : List Operation) :
    ((ofTables settings {}).after operations).tables.favorites.isSome := by
  rw [after_eq_afterSteps]
  exact afterSteps_keeps (p := fun store => store.tables.favorites.isSome) rfl
    (fun _ step h => favorites_isSome_step h step) _

set_option maxRecDepth 2000 in
/-- Of three files one changes its type, one is deleted while it is a favorite, and one stays one. -/
theorem views_agree_after_deletion :
    let files : FileTree :=
      ⟨[(["a"], .file (.sound [71, 73, 70]) 0), (["b"], .file (.sound [1]) 0),
        (["c"], .file (.sound [66, 77]) 0)]⟩
    let changed : FileTree := files.insert ["a"] (.file (.sound [1]) 0)
    let put (files : FileTree) (now : Timestamp) (path : Path) : Operation :=
      .single (.upsert files now path (.object []) none none)
    let mark (now : Timestamp) (id : FileId) : Operation :=
      .single (.toggleFavorite now id none [])
    let operations : List Operation :=
      [put files "1" "a", put files "2" "b", put files "3" "c", mark "4" 1, mark "5" 3,
        put changed "6" "a", .single (.delete "c")]
    let settings : Settings := {}
    let store := (ofTables settings {}).after operations
    (store.Reachable ∧ store.tables.favorites.isSome ∧
        total (store.tables.files.map (·.size)) < Nat.pow 2 63) ∧
      store.ViewsAgree ∧ store.stats = ⟨2, 1, 2, [("application/octet-stream", 2)], 1⟩ := by
  intro files changed put mark operations settings
  -- The run is not named before the facts about it are put together, so that no step evaluates it.
  have hreachable := (Reachable.opened settings).after operations
  have hfavorites := favorites_isSome_after settings operations
  have hsize : total (((ofTables settings {}).after operations).tables.files.map (·.size)) <
      Nat.pow 2 63 := by
    decide +kernel
  dsimp only
  exact ⟨⟨hreachable, hfavorites, hsize⟩, hreachable.views_agree hfavorites hsize,
    by decide +kernel⟩

end Store

end Catalog
