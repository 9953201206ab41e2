import Catalog.Proofs.Store.Conjunction
import Catalog.Proofs.Store.Deposits
import Catalog.Proofs.Store.History

/-! The order of results and their pages. As long as the clock goes forward and nobody adds entries by
hand, a query lists what it finds by the latest deposits, the newest first. -/

namespace Catalog

open Catalog.Files Catalog.Order

theorem FileRecord.arranges_precedes : Arranges FileRecord.precedes :=
  arranges_latest FileRecord.lastUpdated FileRecord.id

def Intrusion.addsEntry : Intrusion → Bool
  | addEntry _ => true
  | _ => false

/-! ### The latest deposits -/

/-- Of each path its latest deposit, the newest first. -/
def newest : List Deposit → List Deposit
  | [] => []
  | deposit :: older => deposit :: (newest older).filter fun other => other.path ≠ deposit.path

variable {log : List Deposit} {deposit other : Deposit}

theorem newest_sublist (log : List Deposit) : (newest log).Sublist log := by
  induction log with
  | nil => exact .slnil
  | cons deposit older ih => exact (List.filter_sublist.trans ih).cons_cons deposit

theorem pairwise_path_newest (log : List Deposit) :
    (newest log).Pairwise fun a b => a.path ≠ b.path := by
  induction log with
  | nil => exact .nil
  | cons deposit older ih =>
    refine List.pairwise_cons.mpr ⟨fun other hother => ?_, ih.filter _⟩
    exact (of_decide_eq_true (List.mem_filter.mp hother).2).symm

theorem eq_of_path_eq (h : deposit ∈ newest log) (hother : other ∈ newest log)
    (hpath : deposit.path = other.path) : deposit = other := by
  have hnodup : ((newest log).map Deposit.path).Nodup :=
    List.pairwise_map.mpr (pairwise_path_newest log)
  exact List.inj_on_of_nodup_map hnodup h hother hpath

namespace Store

variable {store store' : Store} {query : String}

/-- Every file has the time of the latest deposit for its path, and entries have times of deposits. -/
structure Dated (store : Store) (log : List Deposit) : Prop where
  files : ∀ file ∈ store.tables.files,
    ∃ deposit ∈ newest log, deposit.path = file.path ∧ deposit.now = file.lastUpdated
  ledger : ∀ entry ∈ store.tables.ledger.getD [], ∃ deposit ∈ log, deposit.now = entry.recorded

theorem Dated.yields {deposit? : Option Deposit} (h : store.Dated log)
    (hconsistent : store.tables.Consistent) (hyields : store.Yields deposit? store')
    (hlater : ∀ deposit ∈ deposit?, ∀ older ∈ log, older.now < deposit.now) :
    store'.Dated (deposit?.toList ++ log) := by
  cases hyields with
  | nothing hfiles hledger =>
    exact ⟨fun file hfile => h.files file (hfiles file hfile),
      fun entry hentry => h.ledger entry (hledger entry hentry)⟩
  | @stored now time path bytes modified extracted stored id hashRows favoriteRows hstored =>
    have hnewer := hlater _ rfl
    -- All entries are of times of the clock before, so the clock decides.
    have htime : time = now := hstored.time_eq fun entry hentry => by
      obtain ⟨older, holder, heq⟩ := h.ledger entry hentry
      rw [← heq]
      exact fun hlt => Std.lt_irrefl (Std.lt_trans hlt (hnewer older holder))
    constructor
    case files =>
      intro file hfile
      rcases hstored.mem_files_cases hconsistent hfile with ⟨hold, hpath⟩ | ⟨hpath, hrecord⟩
      · obtain ⟨deposit, hdeposit, hsame, hnow⟩ := h.files file hold
        refine ⟨deposit, List.mem_cons_of_mem _ (List.mem_filter.mpr ⟨hdeposit, ?_⟩), hsame, hnow⟩
        rw [hsame]
        exact decide_eq_true hpath
      · refine ⟨_, List.mem_cons_self, hpath.symm, ?_⟩
        rw [hstored.lastUpdated_eq hconsistent hrecord, htime]
    case ledger =>
      refine hstored.recorded_of (fun recorded => ∃ deposit ∈ _ :: log, deposit.now = recorded)
        (fun entry hentry => ?_) ⟨_, List.mem_cons_self, htime.symm⟩
      obtain ⟨deposit, hdeposit, hnow⟩ := h.ledger entry hentry
      exact ⟨deposit, List.mem_cons_of_mem _ hdeposit, hnow⟩

theorem ledger_intrusion {intrusion : Intrusion} (h : intrusion.addsEntry = false) :
    ∀ entry ∈ (intrusion.run store).tables.ledger.getD [],
      entry ∈ store.tables.ledger.getD [] := by
  have hkept : ∀ {change : Except Fault (Tables × Unit)},
      (∀ tables, change = .ok (tables, ()) →
        ∀ entry ∈ tables.ledger.getD [], entry ∈ store.tables.ledger.getD []) →
      ∀ entry ∈ (store.commit change).1.tables.ledger.getD [],
        entry ∈ store.tables.ledger.getD [] := fun hchange =>
    commit_keeps
      (p := fun tables => ∀ entry ∈ tables.ledger.getD [], entry ∈ store.tables.ledger.getD [])
      (fun _ hentry => hentry) fun tables _ heq => hchange tables heq
  cases intrusion with
  | addEntry entry => cases h
  | alterLedger =>
    refine hkept fun tables hchange => ?_
    obtain ⟨entries, -, hchange⟩ := Tables.bind_eq_ok_iff.mp hchange
    split at hchange <;> cases hchange
    exact fun _ hentry => hentry
  | closeLedger =>
    refine hkept fun tables hchange => ?_
    obtain ⟨entries, -, hchange⟩ := Tables.bind_eq_ok_iff.mp hchange
    cases hchange
    exact fun _ hentry => hentry
  | setTagsText id tags =>
    refine hkept fun tables hchange => ?_
    obtain ⟨rows, -, hchange⟩ := Tables.bind_eq_ok_iff.mp hchange
    cases hchange
    exact fun _ hentry => hentry
  | dropTable table =>
    refine hkept fun tables hchange => ?_
    cases table with
    | ledger =>
      obtain ⟨rows, -, hchange⟩ := Tables.map_eq_ok_iff.mp hchange
      cases hchange
      intro entry hentry
      cases hentry
    | _ =>
      obtain ⟨rows, -, hchange⟩ := Tables.map_eq_ok_iff.mp hchange
      cases hchange
      exact fun _ hentry => hentry

theorem Logged.dated (h : store.Logged (fun intrusion => intrusion.addsEntry = false) log)
    (hclock : log.Pairwise fun deposit older => older.now < deposit.now) : store.Dated log := by
  induction h with
  | opened settings =>
    constructor
    · intro file hfile
      cases hfile
    · intro entry hentry
      cases hentry
  | @step store log step hlogged ih =>
    obtain ⟨-, hold, hlater⟩ := List.pairwise_append.mp hclock
    refine (ih hold).yields hlogged.consistent (store.yields_run step) fun deposit hdeposit => ?_
    exact hlater deposit (Option.mem_toList.mpr hdeposit)
  | @intrusion store log intrusion hallowed hlogged ih =>
    have hdated := ih hclock
    refine ⟨?_, fun entry hentry => hdated.ledger entry (ledger_intrusion hallowed entry hentry)⟩
    rw [(store.files_intrusion intrusion).1]
    exact hdated.files

/-! ### Results -/

/-- The query finds the file. -/
def finds (store : Store) (query : String) (file : FileRecord) : Bool :=
  store.tables.answers (store.predicates query) &&
    store.tables.satisfies (store.predicates query) file

theorem select_predicates (store : Store) (query : String) :
    store.tables.select (store.predicates query) =
      sortBy FileRecord.precedes (store.tables.files.filter (store.finds query)) := by
  have hfinds : store.finds query = fun file =>
      store.tables.answers (store.predicates query) &&
        store.tables.satisfies (store.predicates query) file := rfl
  rw [Tables.select, hfinds]
  cases store.tables.answers (store.predicates query) with
  | true => rfl
  | false => simp [sortBy]

theorem eq_of_precedes (h : store.tables.Consistent) {a b : FileRecord}
    (ha : a ∈ store.tables.files) (hb : b ∈ store.tables.files) (hab : a.precedes b)
    (hba : b.precedes a) : a = b :=
  List.inj_on_of_nodup_map h.ids ha hb (key_eq_of_latest hab hba)

theorem Dated.select_eq (h : store.Dated log) (hconsistent : store.tables.Consistent)
    (hclock : log.Pairwise fun deposit older => older.now < deposit.now) (query : String) :
    store.tables.select (store.predicates query) =
      ((newest log).filterMap fun deposit => store.tables.fileAt? deposit.path).filter
        (store.finds query) := by
  have hfound : ∀ {deposit : Deposit} {file : FileRecord}, deposit ∈ newest log →
      store.tables.fileAt? deposit.path = some file → deposit.now = file.lastUpdated := by
    intro deposit file hdeposit hfile
    obtain ⟨hmem, hpath⟩ := Tables.mem_of_fileAt? hfile
    obtain ⟨other, hother, hotherPath, hnow⟩ := h.files file hmem
    rw [eq_of_path_eq hdeposit hother (hpath.symm.trans hotherPath.symm), hnow]
  have hdescending : ((newest log).filterMap fun deposit => store.tables.fileAt? deposit.path).Pairwise
      fun a b => b.lastUpdated < a.lastUpdated := by
    refine List.pairwise_filterMap.mpr ?_
    refine (hclock.sublist (newest_sublist log)).imp_of_mem ?_
    intro deposit older hdeposit holder hlt file hfile other hother
    rw [← hfound hdeposit hfile, ← hfound holder hother]
    exact hlt
  have hmem : ∀ file, file ∈ ((newest log).filterMap fun deposit => store.tables.fileAt? deposit.path) ↔
      file ∈ store.tables.files := by
    intro file
    rw [List.mem_filterMap]
    constructor
    · rintro ⟨deposit, -, hfile⟩
      exact (Tables.mem_of_fileAt? hfile).1
    · intro hfile
      obtain ⟨deposit, hdeposit, hpath, -⟩ := h.files file hfile
      exact ⟨deposit, hdeposit, hconsistent.fileAt?_eq_some_iff.mpr ⟨hfile, hpath.symm⟩⟩
  have hnodup : ((newest log).filterMap fun deposit => store.tables.fileAt? deposit.path).Nodup := by
    refine hdescending.imp ?_
    rintro a _ hlt rfl
    exact Std.lt_irrefl hlt
  rw [select_predicates]
  apply sortBy_eq_of_pairwise FileRecord.arranges_precedes
  · refine ((List.perm_ext_iff_of_nodup hnodup ?_).mpr hmem).filter _
    exact hconsistent.ids.of_map
  · intro a ha b hb
    exact eq_of_precedes hconsistent (List.mem_of_mem_filter ha) (List.mem_of_mem_filter hb)
  · refine (hdescending.filter _).imp fun {a b} hlt => ?_
    rw [FileRecord.precedes, decide_eq_true hlt, Bool.true_or]

/-! ### Pages -/

theorem window_append {α : Type} (size rest offset : Nat) (xs : List α) :
    window size offset xs ++ window rest (offset + size) xs = window (size + rest) offset xs := by
  rw [window, window, window, List.take_add, List.drop_drop]

theorem window_min {α : Type} {bound : Nat} {xs : List α} (h : xs.length ≤ bound)
    (limit offset : Nat) :
    window (min limit bound) (min offset bound) xs = window limit offset xs := by
  apply List.ext_getElem?
  intro k
  rw [getElem?_window, getElem?_window]
  by_cases hpast : xs.length ≤ min offset bound + k
  · rw [List.getElem?_eq_none hpast, List.getElem?_eq_none (by omega)]
    split <;> split <;> rfl
  · rw [show min offset bound = offset by omega]
    split <;> split
    · rfl
    · omega
    · omega
    · rfl

/-- Consecutive pages of the given sizes, one after the other. -/
def pages (store : Store) (query : String) (offset : Nat) : List Nat → List FileRecord
  | [] => []
  | size :: rest =>
    (store.search query size offset).files ++ store.pages query (offset + size) rest

theorem files_search_eq_window (store : Store) (query : String) (limit offset : Nat) :
    (store.search query limit offset).files =
      window limit offset (store.tables.select (store.predicates query)) := rfl

theorem pages_eq_window (store : Store) (query : String) (offset : Nat) (sizes : List Nat) :
    store.pages query offset sizes =
      window (total sizes) offset (store.tables.select (store.predicates query)) := by
  induction sizes generalizing offset with
  | nil => rfl
  | cons size rest ih => rw [pages, ih, files_search_eq_window, window_append, total]

theorem nodup_select (h : store.tables.Consistent) (query : String) :
    (store.tables.select (store.predicates query)).Nodup := by
  rw [select_predicates]
  exact (sortBy_perm _ _).nodup_iff.mpr (h.ids.of_map.filter _)

theorem mem_select_iff_finds {file : FileRecord} :
    file ∈ store.tables.select (store.predicates query) ↔
      file ∈ store.tables.files ∧ store.finds query file := by
  rw [select_predicates, (sortBy_perm _ _).mem_iff, List.mem_filter]

/-- How the results of a query are listed. -/
structure ListsResults (store : Store) (query : String) : Prop where
  -- Whatever else was done in between, the deposits alone decide on the order.
  newestFirst : ∀ log, store.Logged (fun intrusion => intrusion.addsEntry = false) log →
    (log.Pairwise fun deposit older => older.now < deposit.now) →
      ∀ limit, store.tables.files.length ≤ limit →
        (store.search query limit 0).files =
          ((newest log).filterMap fun deposit => store.tables.fileAt? deposit.path).filter
            (store.finds query)
  windows : ∀ limit offset unlimited, store.tables.files.length ≤ unlimited →
    (store.search query limit offset).files =
      window limit offset (store.search query unlimited 0).files
  elements : ∀ limit offset unlimited (k : Nat), store.tables.files.length ≤ unlimited →
    (store.search query limit offset).files[k]? =
      if k < limit then (store.search query unlimited 0).files[offset + k]? else none
  -- Larger limits and offsets than 2 ^ 63 - 1 are as good as that.
  clamped : store.tables.files.length ≤ Nat.pow 2 63 - 1 → ∀ limit offset,
    (store.search query (min limit (Nat.pow 2 63 - 1)) (min offset (Nat.pow 2 63 - 1))).files =
      (store.search query limit offset).files
  pages : ∀ sizes unlimited, store.tables.files.length ≤ unlimited →
    store.pages query 0 sizes = (store.search query unlimited 0).files.take (total sizes)
  once : ∀ sizes, (store.pages query 0 sizes).Nodup
  complete : ∀ sizes, store.tables.files.length ≤ total sizes → ∀ file,
    file ∈ store.pages query 0 sizes ↔ file ∈ store.tables.files ∧ store.finds query file

/-- In every catalog that can be reached, what a query finds is listed by the latest deposits, the newest
first, and limits and offsets cut windows out of that one list. -/
theorem Reachable.listsResults (h : store.Reachable) (query : String) :
    store.ListsResults query where
  newestFirst log hlogged hclock limit hlimit := by
    rw [files_search store query hlimit]
    exact (hlogged.dated hclock).select_eq h.consistent hclock query
  windows limit offset unlimited hunlimited := by
    rw [files_search store query hunlimited, files_search_eq_window]
  elements limit offset unlimited k hunlimited := by
    rw [files_search store query hunlimited, files_search_eq_window, getElem?_window]
  clamped hbound limit offset := by
    rw [files_search_eq_window, files_search_eq_window]
    exact window_min (Nat.le_trans Tables.length_select_le hbound) limit offset
  pages sizes unlimited hunlimited := by
    rw [files_search store query hunlimited, pages_eq_window, window, List.drop_zero]
  once sizes := by
    rw [pages_eq_window]
    exact ((nodup_select h.consistent query).sublist (List.drop_sublist _ _)).sublist
      (List.take_sublist _ _)
  complete sizes hsizes file := by
    rw [pages_eq_window, window, List.drop_zero,
      List.take_of_length_le (Nat.le_trans Tables.length_select_le hsizes), mem_select_iff_finds]

set_option maxRecDepth 2000 in
/-- One file is stored again as it is, and another one is deleted in between. -/
theorem listsResults_after_deletion :
    let files : FileTree :=
      ⟨[(["a"], .file (.sound [1]) 0), (["b"], .file (.sound [2]) 0), (["c"], .file (.sound [3]) 0)]⟩
    let put (now : Timestamp) (path : Path) : Step := .upsert files now path (.object []) none none
    let steps : List Step :=
      [put "1" "a", put "2" "b", put "3" "c", put "4" "a", .delete "b", put "5" "b"]
    let store := (ofTables {} {}).afterSteps steps
    let log := (ofTables {} {}).depositsBy steps
    (store.Reachable ∧ store.Logged (fun intrusion => intrusion.addsEntry = false) log ∧
        (log.Pairwise fun deposit older => older.now < deposit.now)) ∧
      ((store.search "size:1" 3 0).files.map (·.path) = ["b", "a", "c"] ∧
        (newest log).map (·.path) = ["b", "a", "c"]) ∧
      store.pages "size:1" 0 [1, 2] = (store.search "size:1" 3 0).files := by
  intro files put steps store log
  have hlogged : store.Logged (fun intrusion => intrusion.addsEntry = false) (log ++ []) :=
    (Logged.opened {}).afterSteps steps
  rw [List.append_nil] at hlogged
  have hlists := hlogged.reachable.listsResults "size:1"
  have hclock : log.Pairwise fun deposit older => older.now < deposit.now := by decide +kernel
  have hfew : store.tables.files.length ≤ 3 := by decide +kernel
  refine ⟨⟨hlogged.reachable, hlogged, hclock⟩, ⟨?_, by decide +kernel⟩, ?_⟩
  · rw [hlists.newestFirst log hlogged hclock 3 hfew]
    decide +kernel
  · rw [hlists.pages [1, 2] 3 hfew, List.take_of_length_le]
    decide +kernel

end Store

end Catalog
