import Catalog.Proofs.Query.Clause
import Catalog.Store.Basic
import Mathlib.Data.List.Basic

/-! Queries are conjunctions. The predicates of a query are those of its clauses, each read alone, and it
finds the files that all of them find, so long as its condition can be evaluated. -/

namespace Catalog

open Catalog.Query Catalog.Text

namespace Query

/-- The clauses of a query that can be understood, each as a query of its own. -/
def understood (normalizedCategory query : String) : List String :=
  ((clauses query.toList).filter fun clause => (predicate? normalizedCategory clause).isSome).map
    String.ofList

variable {normalizedCategory query clause : String}

theorem predicate?_nil (normalizedCategory : String) : predicate? normalizedCategory [] = none := rfl

/-- Alone, an understood clause compiles to its predicate. -/
theorem compile_of_mem_understood (h : clause ∈ understood normalizedCategory query) :
    ∃ predicate, predicate? normalizedCategory clause.toList = some predicate ∧
      compile normalizedCategory clause = ⟨[predicate], 1⟩ := by
  obtain ⟨text, htext, rfl⟩ := List.mem_map.mp h
  obtain ⟨hmem, hunderstood⟩ := List.mem_filter.mp htext
  obtain ⟨predicate, hpredicate⟩ := Option.isSome_iff_exists.mp hunderstood
  have hne : text ≠ [] := by
    rintro rfl
    rw [predicate?_nil] at hpredicate
    cases hpredicate
  refine ⟨predicate, by rw [String.toList_ofList, hpredicate], ?_⟩
  rw [compile, String.toList_ofList, clauses_of_mem hmem hne, List.filterMap_cons, hpredicate]
  rfl

theorem predicates_eq_flatMap_understood (normalizedCategory query : String) :
    (compile normalizedCategory query).predicates =
      (understood normalizedCategory query).flatMap fun clause =>
        (compile normalizedCategory clause).predicates := by
  have halone : ∀ clause ∈ understood normalizedCategory query,
      (compile normalizedCategory clause).predicates =
        (predicate? normalizedCategory clause.toList).toList := by
    intro clause hclause
    obtain ⟨predicate, hpredicate, hcompile⟩ := compile_of_mem_understood hclause
    rw [hcompile, hpredicate]
    rfl
  have hkept : ∀ text, (if (predicate? normalizedCategory text).isSome then
      predicate? normalizedCategory text else none) = predicate? normalizedCategory text := by
    intro text
    cases predicate? normalizedCategory text <;> rfl
  rw [List.flatMap_congr halone, ← List.filterMap_eq_flatMap_toList, understood, List.filterMap_map,
    List.filterMap_filter]
  simp only [Function.comp_apply, String.toList_ofList, hkept]
  rfl

/-! ### Levels -/

theorem Predicate.levels_le (predicate : Predicate) : predicate.levels ≤ lookupLevels + 1 := by
  obtain ⟨field, op, literal⟩ := predicate
  rw [Predicate.levels]
  split
  · exact Nat.le_refl _
  · have htext : field.textLevels ≤ 3 := by
      unfold FieldRef.textLevels
      split <;> omega
    have hnumber : field.numberLevels ≤ 3 := by
      unfold FieldRef.numberLevels
      split <;> omega
    simp only [comparisonLevels, lookupLevels]
    split
    · omega
    · split <;> omega

theorem foldl_levels_le {levels bound : Nat} (hlevels : levels ≤ bound)
    (hbound : lookupLevels + 1 ≤ bound) (rest : List Predicate) :
    rest.foldl (fun levels predicate => max levels predicate.levels + 1) levels ≤
      bound + rest.length := by
  induction rest generalizing levels bound with
  | nil => exact hlevels
  | cons predicate rest ih =>
    have hpredicate := predicate.levels_le
    have hrest : rest.foldl (fun levels predicate => max levels predicate.levels + 1)
        (max levels predicate.levels + 1) ≤ bound + 1 + rest.length := ih (by omega) (by omega)
    rw [List.foldl_cons, List.length_cons]
    omega

theorem add_length_le_foldl_levels (levels : Nat) (rest : List Predicate) :
    levels + rest.length ≤
      rest.foldl (fun levels predicate => max levels predicate.levels + 1) levels := by
  induction rest generalizing levels with
  | nil => exact Nat.le_refl _
  | cons predicate rest ih =>
    have hrest := ih (max levels predicate.levels + 1)
    rw [List.foldl_cons, List.length_cons]
    omega

theorem isEvaluable_iff {predicates : List Predicate} :
    isEvaluable predicates ↔
      joinedLevels predicates + (if predicates.any Predicate.readsFields then lookupLevels else 0) ≤
        mostLevels := decide_eq_true_iff

/-- The levels that are left beside the deepest predicate bound the number of predicates. -/
theorem isEvaluable_of_length_le {predicates : List Predicate} (h : predicates.length ≤ 988) :
    isEvaluable predicates := by
  have hlookup : (if predicates.any Predicate.readsFields then lookupLevels else 0) ≤ 6 := by
    split
    · exact Nat.le_refl _
    · omega
  have hjoined : joinedLevels predicates ≤ 994 := by
    cases predicates with
    | nil => exact Nat.zero_le _
    | cons first rest =>
      have hrest := foldl_levels_le first.levels_le (Nat.le_refl _) rest
      rw [List.length_cons] at h
      simp only [joinedLevels, lookupLevels] at hrest ⊢
      omega
  rw [isEvaluable_iff, mostLevels]
  omega

theorem isEvaluable_singleton (predicate : Predicate) : isEvaluable [predicate] :=
  isEvaluable_of_length_le (by simp)

/-- Every join is a level. -/
theorem not_isEvaluable_of_length {predicates : List Predicate}
    (h : mostLevels + 1 < predicates.length) : isEvaluable predicates = false := by
  cases predicates with
  | nil => simp at h
  | cons first rest =>
    have hrest := add_length_le_foldl_levels first.levels rest
    rw [List.length_cons] at h
    rw [← Bool.not_eq_true, isEvaluable_iff, joinedLevels]
    omega

end Query

namespace Tables

variable {tables : Tables} {predicates : List Predicate} {file : FileRecord}

theorem mem_select_iff :
    file ∈ tables.select predicates ↔
      tables.answers predicates ∧ file ∈ tables.files ∧ tables.satisfies predicates file := by
  rw [select]
  by_cases h : tables.answers predicates
  · simp [h, (Order.sortBy_perm _ _).mem_iff]
  · simp [h]

theorem answers_iff :
    tables.answers predicates ↔
      predicates ≠ [] ∧ isEvaluable predicates ∧
        ∀ predicate ∈ predicates, predicate.readsFields → tables.fields.isSome := by
  by_cases hfields : tables.fields.isSome <;> simp [answers, hfields, and_assoc]

/-- What several predicates select is what each of them selects. -/
theorem mem_select_iff_forall (hne : predicates ≠ []) (h : isEvaluable predicates) :
    file ∈ tables.select predicates ↔
      ∀ predicate ∈ predicates, file ∈ tables.select [predicate] := by
  simp only [mem_select_iff, answers_iff, satisfies, List.all_eq_true, List.forall_mem_singleton]
  constructor
  · rintro ⟨⟨-, -, hfields⟩, hfile, hholds⟩ predicate hmem
    exact ⟨⟨by simp, isEvaluable_singleton _, hfields predicate hmem⟩, hfile, hholds predicate hmem⟩
  · intro halone
    obtain ⟨first, hfirst⟩ := List.exists_mem_of_ne_nil _ hne
    exact ⟨⟨hne, h, fun predicate hmem => (halone predicate hmem).1.2.2⟩, (halone first hfirst).2.1,
      fun predicate hmem => (halone predicate hmem).2.2⟩

theorem length_select_le : (tables.select predicates).length ≤ tables.files.length := by
  rw [select]
  split
  · exact Nat.zero_le _
  · rw [(Order.sortBy_perm _ _).length_eq]
    exact List.length_filter_le _ _

end Tables

namespace Store

/-- The clauses of a query that the catalog understands. -/
def understood (store : Store) (query : String) : List String :=
  Query.understood store.settings.flatten.normalizedCategory query

def predicates (store : Store) (query : String) : List Predicate :=
  (compile store.settings.flatten.normalizedCategory query).predicates

/-- Without a limit the query finds the files that all of its understood clauses find alone. -/
def FindsCommon (store : Store) (query : String) : Prop :=
  ∀ limit, store.tables.files.length ≤ limit → ∀ file,
    file ∈ (store.search query limit 0).files ↔
      ∀ clause ∈ store.understood query, file ∈ (store.search clause limit 0).files

theorem files_search (store : Store) (query : String) {limit : Nat}
    (h : store.tables.files.length ≤ limit) :
    (store.search query limit 0).files = store.tables.select (store.predicates query) := by
  rw [search, window, List.drop_zero, predicates]
  exact List.take_of_length_le (Nat.le_trans Tables.length_select_le h)

theorem predicates_of_mem_understood {store : Store} {query clause : String}
    (h : clause ∈ store.understood query) : ∃ predicate, store.predicates clause = [predicate] := by
  obtain ⟨predicate, -, hcompile⟩ := compile_of_mem_understood h
  exact ⟨predicate, by rw [predicates, hcompile]⟩

theorem predicates_ne_nil {store : Store} {query : String} (h : store.understood query ≠ []) :
    store.predicates query ≠ [] := by
  obtain ⟨clause, hclause⟩ := List.exists_mem_of_ne_nil _ h
  obtain ⟨predicate, hsingle⟩ := predicates_of_mem_understood hclause
  have hown : predicate ∈ store.predicates clause := by
    rw [hsingle]
    exact List.mem_cons_self
  have hmem : predicate ∈ store.predicates query := by
    rw [predicates, predicates_eq_flatMap_understood]
    exact List.mem_flatMap.mpr ⟨clause, hclause, hown⟩
  exact List.ne_nil_of_mem hmem

theorem search_eq_nil {store : Store} {query : String}
    (h : isEvaluable (store.predicates query) = false) (limit offset : Nat) :
    (store.search query limit offset).files = [] := by
  have hnone : store.tables.select (store.predicates query) = [] := by
    rw [Tables.select, Tables.answers, h]
    simp
  rw [predicates] at hnone
  rw [search]
  simp [hnone, window]

/-- A query that can be evaluated is the conjunction of its understood clauses. One whose condition has
too many levels finds nothing. -/
theorem search_conjunction (store : Store) (query : String) :
    store.predicates query = (store.understood query).flatMap store.predicates ∧
      (store.understood query ≠ [] → isEvaluable (store.predicates query) →
        store.FindsCommon query) ∧
      ((store.predicates query).length ≤ 988 → isEvaluable (store.predicates query)) ∧
      (isEvaluable (store.predicates query) = false →
        ∀ limit offset, (store.search query limit offset).files = []) := by
  have hpredicates : store.predicates query = (store.understood query).flatMap store.predicates :=
    predicates_eq_flatMap_understood _ query
  refine ⟨hpredicates, ?_, isEvaluable_of_length_le, search_eq_nil⟩
  intro hunderstood hevaluable limit hlimit file
  have hne := predicates_ne_nil hunderstood
  rw [store.files_search query hlimit, Tables.mem_select_iff_forall hne hevaluable, hpredicates]
  simp only [List.forall_mem_flatMap]
  refine forall₂_congr fun clause hclause => ?_
  obtain ⟨predicate, hsingle⟩ := predicates_of_mem_understood hclause
  rw [store.files_search clause hlimit, hsingle, List.forall_mem_singleton]

set_option maxRecDepth 2000 in
/-- Of two files one is found by both clauses of a query. -/
theorem search_conjunction_of_two :
    let files : Files.FileTree := ⟨[(["a"], .file (.sound [1]) 0), (["ab"], .file (.sound [1, 2]) 0)]⟩
    let store := ((ofTables {} {}).upsert files "0" "a" (.object []) none none).1
    let store := (store.upsert files "1" "ab" (.object []) none none).1
    let query := "path:a AND nothing AND size > 1"
    (store.understood query ≠ [] ∧ isEvaluable (store.predicates query)) ∧
      store.FindsCommon query ∧
      store.understood query = ["path:a", "size > 1"] ∧
      ((store.search query 2 0).files.map (·.id), (store.search "path:a" 2 0).files.map (·.id)) =
        ([2], [2, 1]) := by
  intro files first store query
  have hunderstood : store.understood query = ["path:a", "size > 1"] := by decide +kernel
  have hne : store.understood query ≠ [] := by
    rw [hunderstood]
    exact List.cons_ne_nil _ _
  obtain ⟨-, hcommon, hshort, -⟩ := search_conjunction store query
  have hevaluable := hshort (by decide +kernel)
  exact ⟨⟨hne, hevaluable⟩, hcommon hne hevaluable, hunderstood, by decide +kernel⟩

set_option maxRecDepth 2000 in
/-- A clause that finds a file finds it no more in a query that repeats the clause too often. -/
theorem not_findsCommon_past_levels :
    let files : Files.FileTree := ⟨[(["a"], .file (.sound [120]) 0)]⟩
    let store := ((ofTables {} {}).upsert files "0" "a" (.object []) none none).1
    let query := String.ofList (separator.intercalate (List.replicate 1100 "path:a".toList))
    store.understood query ≠ [] ∧ ¬store.FindsCommon query := by
  intro files store query
  have htrimmed : Trimmed "path:a".toList := by
    constructor <;> intro c hc
    · obtain rfl : 'p' = c := Option.some.inj hc
      decide
    · obtain rfl : 'a' = c := Option.some.inj hc
      decide
  have hplain : ("path:a".toList.all fun c => !isQuote c) = true := by decide
  have hstandalone : Standalone "path:a".toList :=
    { trimmed := htrimmed, nonempty := by decide, whole := rfl
      closed := fun _ =>
        openAfter_of_plain fun c hc => by simpa using List.all_eq_true.mp hplain c hc }
  have hclauses : clauses query.toList = List.replicate 1100 "path:a".toList := by
    rw [String.toList_ofList]
    exact Standalone.clauses_intercalate fun text htext =>
      (List.eq_of_mem_replicate htext).symm ▸ hstandalone
  have hread : ∀ category, predicate? category "path:a".toList =
      some ⟨.file .path, .like, .text "a"⟩ := fun _ => rfl
  have hunderstood : store.understood query = List.replicate 1100 "path:a" := by
    rw [understood, Query.understood, hclauses, List.filter_replicate_of_pos (by rw [hread]; rfl),
      List.map_replicate]
    rfl
  have hdeep : isEvaluable (store.predicates query) = false := by
    refine not_isEvaluable_of_length ?_
    rw [predicates, compile, hclauses, List.filterMap_replicate_of_some (hread _),
      List.length_replicate]
    decide
  have hlimit : store.tables.files.length ≤ 1 := by decide +kernel
  obtain ⟨file, hfile⟩ : ∃ file, file ∈ (store.search "path:a" 1 0).files :=
    List.exists_mem_of_ne_nil _ (by decide +kernel)
  have halone : ∀ clause ∈ store.understood query, file ∈ (store.search clause 1 0).files := by
    intro clause hclause
    rw [hunderstood] at hclause
    rw [List.eq_of_mem_replicate hclause]
    exact hfile
  constructor
  · rw [hunderstood]
    exact List.cons_ne_nil _ _
  · intro hcommon
    have hfound := (hcommon 1 hlimit file).mpr halone
    rw [search_eq_nil hdeep] at hfound
    cases hfound

end Store

end Catalog
