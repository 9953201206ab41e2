import Catalog.Proofs.Order.Sort
import Catalog.Proofs.Store.Fields
import Catalog.Store.Ledger
import Mathlib.Data.List.Nodup

/-! The ledger under any clock. The time of new entries is no earlier than that of any entry of their
file, and their ids are larger than all that came before; so the history of the file, which is in order
of times and then of ids, has them in front, the last one first. -/

namespace Catalog

open Catalog.Order

/-- The entries of the ledger for changes of a file, with ids from `first` on. -/
def entriesFor (id : FileId) (recorded : Timestamp) (first : Nat) :
    List (FieldKey × Change) → List LedgerEntry
  | [] => []
  | (field, change) :: rest =>
    ⟨first, id, recorded, change.kind, field, change.old?, change.new?⟩ ::
      entriesFor id recorded (first + 1) rest

theorem mem_entriesFor {id : FileId} {recorded : Timestamp} {first : Nat}
    {changes : List (FieldKey × Change)} {entry : LedgerEntry}
    (h : entry ∈ entriesFor id recorded first changes) :
    entry.file = id ∧ entry.recorded = recorded ∧ first ≤ entry.id ∧
      entry.id < first + changes.length := by
  induction changes generalizing first with
  | nil => simp [entriesFor] at h
  | cons e rest ih =>
    obtain ⟨field, change⟩ := e
    rw [entriesFor, List.mem_cons] at h
    rcases h with rfl | h
    · simp
    · obtain ⟨hfile, hrecorded, hlow, hhigh⟩ := ih h
      exact ⟨hfile, hrecorded, by omega, by simp; omega⟩

theorem pairwise_id_entriesFor (id : FileId) (recorded : Timestamp) (first : Nat)
    (changes : List (FieldKey × Change)) :
    (entriesFor id recorded first changes).Pairwise fun a b => a.id < b.id := by
  induction changes generalizing first with
  | nil => exact .nil
  | cons e rest ih =>
    obtain ⟨field, change⟩ := e
    rw [entriesFor]
    refine List.pairwise_cons.mpr ⟨fun entry h => ?_, ih (first + 1)⟩
    have := (mem_entriesFor h).2.2.1
    simp only
    omega

theorem map_field_entriesFor (id : FileId) (recorded : Timestamp) (first : Nat)
    (changes : List (FieldKey × Change)) :
    (entriesFor id recorded first changes).map (·.field) = changes.map (·.1) := by
  induction changes generalizing first with
  | nil => rfl
  | cons e rest ih => rw [entriesFor, List.map_cons, List.map_cons, ih]

/-- The entries are in ascending order of ids, all of them below `next`. -/
structure Numbered (entries : List LedgerEntry) (next : Nat) : Prop where
  ascending : entries.Pairwise fun a b => a.id < b.id
  below : ∀ entry ∈ entries, entry.id < next

theorem Numbered.nil (next : Nat) : Numbered [] next := ⟨.nil, by simp⟩

theorem Numbered.filter {entries : List LedgerEntry} {next : Nat} (h : Numbered entries next)
    (keep : LedgerEntry → Bool) : Numbered (entries.filter keep) next :=
  ⟨h.ascending.filter keep, fun entry hentry => h.below entry (List.mem_filter.mp hentry).1⟩

theorem Numbered.append {entries new : List LedgerEntry} {next next' : Nat}
    (h : Numbered entries next) (hle : next ≤ next')
    (hascending : new.Pairwise fun a b => a.id < b.id)
    (hnew : ∀ entry ∈ new, next ≤ entry.id ∧ entry.id < next') :
    Numbered (entries ++ new) next' where
  ascending := by
    refine List.pairwise_append.mpr ⟨h.ascending, hascending, fun old hold entry hentry => ?_⟩
    exact Nat.lt_of_lt_of_le (h.below old hold) (hnew entry hentry).1
  below entry hentry := by
    rcases List.mem_append.mp hentry with hold | hentry
    · exact Nat.lt_of_lt_of_le (h.below entry hold) hle
    · exact (hnew entry hentry).2

/-- Entries with one id are the same. -/
theorem Numbered.eq_of_id_eq {entries : List LedgerEntry} {next : Nat} (h : Numbered entries next)
    {a b : LedgerEntry} (ha : a ∈ entries) (hb : b ∈ entries) (heq : a.id = b.id) : a = b := by
  have hnodup : (entries.map (·.id)).Nodup :=
    List.pairwise_map.mpr (h.ascending.imp Nat.ne_of_lt)
  exact List.inj_on_of_nodup_map hnodup ha hb heq

namespace Tables

/-! ### Appending -/

theorem appendEntry_ok {tables tables' : Tables} {id : FileId} {recorded : Timestamp}
    {kind : ChangeKind} {field : FieldKey} {old new : Option String}
    (h : tables.appendEntry id recorded kind field old new = .ok tables') :
    ∃ entries, tables.ledger = some entries ∧
      tables' =
        { tables with
          ledger := some (entries ++ [⟨tables.nextEntry, id, recorded, kind, field, old, new⟩])
          nextEntry := tables.nextEntry + 1 } := by
  rw [appendEntry, bind_eq_ok_iff] at h
  obtain ⟨entries, hneed, h⟩ := h
  split at h
  · cases h
  · cases h
    exact ⟨entries, need_eq_ok_iff.mp hneed, rfl⟩

theorem appendChanges_ok {tables tables' : Tables} {entries : List LedgerEntry} {id : FileId}
    {recorded : Timestamp} {changes : List (FieldKey × Change)}
    (h : tables.appendChanges id recorded changes = .ok tables')
    (hentries : tables.ledger = some entries) :
    tables' =
      { tables with
        ledger := some (entries ++ entriesFor id recorded tables.nextEntry changes)
        nextEntry := tables.nextEntry + changes.length } := by
  induction changes generalizing tables entries with
  | nil =>
    rw [appendChanges, hentries, need, Except.map, Except.ok.injEq] at h
    subst h
    simp [entriesFor, ← hentries]
  | cons e rest ih =>
    obtain ⟨field, change⟩ := e
    rw [appendChanges, bind_eq_ok_iff] at h
    obtain ⟨middle, hentry, hrest⟩ := h
    obtain ⟨entries', hentries', rfl⟩ := appendEntry_ok hentry
    rw [hentries, Option.some.injEq] at hentries'
    subst hentries'
    rw [ih hrest rfl]
    simp [entriesFor, Nat.add_assoc, Nat.add_comm 1]

theorem not_foldl_later_lt (entries : List LedgerEntry) (now : Timestamp) :
    ¬entries.foldl (fun time entry => later time entry.recorded) now < now ∧
      ∀ entry ∈ entries,
        ¬entries.foldl (fun time entry => later time entry.recorded) now < entry.recorded := by
  induction entries generalizing now with
  | nil => exact ⟨Std.lt_irrefl, by simp⟩
  | cons e rest ih =>
    obtain ⟨hstart, hrest⟩ := ih (later now e.recorded)
    have hlater : ¬later now e.recorded < now ∧ ¬later now e.recorded < e.recorded := by
      rw [later]
      split
      · rename_i hlt
        exact ⟨fun h => Std.lt_irrefl (Std.lt_trans hlt h), Std.lt_irrefl⟩
      · rename_i hle
        exact ⟨Std.lt_irrefl, hle⟩
    rw [Std.not_lt] at hstart hlater
    rw [Std.not_lt] at hlater
    rw [List.foldl_cons, Std.not_lt]
    refine ⟨Std.le_trans hlater.1 hstart, fun entry hentry => ?_⟩
    rcases List.mem_cons.mp hentry with rfl | hentry
    · exact Std.not_lt.mpr (Std.le_trans hlater.2 hstart)
    · exact hrest entry hentry

/-- The time under which a file is stored is no earlier than any entry of the file. -/
theorem ledgerTime_ok {tables : Tables} {id : FileId} {now time : Timestamp}
    (h : tables.ledgerTime id now = .ok time) :
    ∃ entries, tables.ledger = some entries ∧
      ∀ entry ∈ entries, entry.file = id → ¬time < entry.recorded := by
  rw [ledgerTime, bind_eq_ok_iff] at h
  obtain ⟨entries, hneed, htime⟩ := h
  cases htime
  refine ⟨entries, need_eq_ok_iff.mp hneed, fun entry hentry hfile => ?_⟩
  exact (not_foldl_later_lt _ now).2 entry (List.mem_filter.mpr ⟨hentry, by simp [hfile]⟩)

end Tables

/-! ### Histories -/

theorem LedgerEntry.arranges_precedes : Arranges LedgerEntry.precedes :=
  arranges_latest LedgerEntry.recorded LedgerEntry.id

theorem LedgerEntry.id_eq_of_precedes {a b : LedgerEntry} (hab : a.precedes b)
    (hba : b.precedes a) : a.id = b.id :=
  key_eq_of_latest hab hba

namespace Tables

theorem mem_wholeHistory {tables : Tables} {id : FileId} {entry : LedgerEntry} :
    entry ∈ tables.wholeHistory id ↔ entry ∈ tables.ledger.getD [] ∧ entry.file = id := by
  rw [wholeHistory, (sortBy_perm _ _).mem_iff, List.mem_filter, beq_iff_eq]

/-- New entries of a file come in front of its history, the last one first. -/
theorem wholeHistory_append {tables tables' : Tables} {new : List LedgerEntry} {next : Nat}
    {id : FileId} {time : Timestamp}
    (hledger : tables'.ledger.getD [] = tables.ledger.getD [] ++ new)
    (hnumbered : Numbered (tables.ledger.getD [] ++ new) next)
    (hnew : ∀ entry ∈ new, entry.file = id ∧ entry.recorded = time)
    (htime : ∀ entry ∈ tables.ledger.getD [], entry.file = id → ¬time < entry.recorded) :
    tables'.wholeHistory id = new.reverse ++ tables.wholeHistory id := by
  have hkept : new.filter (fun entry => entry.file == id) = new :=
    List.filter_eq_self.mpr fun entry hentry => by simp [hnew entry hentry]
  rw [wholeHistory, hledger, List.filter_append, hkept]
  -- The right side has the same entries and is in order, and no order but one is possible: ids differ.
  apply sortBy_eq_of_pairwise LedgerEntry.arranges_precedes
  · exact ((List.reverse_perm new).append (sortBy_perm _ _)).trans List.perm_append_comm
  · intro a ha b hb hab hba
    have hmem : ∀ entry ∈ (tables.ledger.getD []).filter (fun entry => entry.file == id) ++ new,
        entry ∈ tables.ledger.getD [] ++ new := by
      simp only [List.mem_append, List.mem_filter]
      rintro entry (⟨hold, -⟩ | hnew)
      · exact .inl hold
      · exact .inr hnew
    exact hnumbered.eq_of_id_eq (hmem a ha) (hmem b hb) (LedgerEntry.id_eq_of_precedes hab hba)
  · obtain ⟨-, hascending, hlast⟩ := List.pairwise_append.mp hnumbered.ascending
    refine List.pairwise_append.mpr ⟨?_, pairwise_sortBy LedgerEntry.arranges_precedes _, ?_⟩
    · rw [List.pairwise_reverse]
      refine hascending.imp_of_mem fun {a b} ha hb hlt => ?_
      simp [LedgerEntry.precedes, hnew a ha, hnew b hb, Nat.le_of_lt hlt]
    · intro a ha b hb
      rw [List.mem_reverse] at ha
      rw [mem_wholeHistory] at hb
      have hlt := hlast b hb.1 a ha
      have hle := htime b hb.1 hb.2
      simp only [LedgerEntry.precedes, Bool.or_eq_true, Bool.and_eq_true, decide_eq_true_eq,
        beq_iff_eq, (hnew a ha).2]
      grind

theorem wholeHistory_append_of_ne {tables tables' : Tables} {new : List LedgerEntry}
    {id other : FileId} (hledger : tables'.ledger.getD [] = tables.ledger.getD [] ++ new)
    (hnew : ∀ entry ∈ new, entry.file = id) (hne : other ≠ id) :
    tables'.wholeHistory other = tables.wholeHistory other := by
  have hnone : new.filter (fun entry => entry.file == other) = [] :=
    List.filter_eq_nil_iff.mpr fun entry hentry => by simp [hnew entry hentry, hne.symm]
  rw [wholeHistory, hledger, List.filter_append, hnone, List.append_nil, wholeHistory]

end Tables

end Catalog
