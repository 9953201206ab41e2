import Catalog.Proofs.Store.Admission
import Catalog.Proofs.Store.Identity
import Catalog.Proofs.Store.Isolation

/-! What a catalog knows of a path, and what an upsert makes of that. An upsert changes the account of
its own path only, and apart from ids and times the new account is determined by the old one. -/

namespace Catalog

open Catalog.Order

/-- All that is known of the file stored for a path. -/
structure Account where
  record : FileRecord
  explicit : FieldMap
  derived : FieldMap
  /-- The changes, the latest first. -/
  history : List LedgerEntry
  hashes : List (String × String)
  favorites : List FavoriteRow
deriving DecidableEq, Repr

namespace Tables

def accountOf (tables : Tables) (file : FileRecord) : Account where
  record := file
  explicit := tables.explicitOf file.id
  derived := tables.derivedOf file.id
  history := tables.wholeHistory file.id
  hashes := tables.hashesOf file.id
  favorites := (tables.dossier file.id).favorites

/-- What is known of a path; nothing if no file is stored for it. -/
def account? (tables : Tables) (path : String) : Option Account :=
  (tables.fileAt? path).map tables.accountOf

end Tables

/-- The hashes of a file with the given ones put over them. -/
def withHashes (given : Option (List (String × String))) (hashes : List (String × String)) :
    List (String × String) :=
  (given.getD []).foldl (fun sorted e => put e.1 e.2 sorted) hashes

namespace Account

/-- The record of a file that is seen again. It is left alone, but for its time, where the bytes and
all fields are as they were. -/
def seenAgain (account : Account) (time : Timestamp) (seen : Observation) (extracted : Extracted) :
    FileRecord :=
  if account.record.hash = seen.hash ∧
      FieldMap.changes account.explicit extracted.explicit = [] ∧
      account.derived = extracted.derived then
    { account.record with lastUpdated := time }
  else
    { account.record with
      hash := seen.hash, size := seen.size, modified := seen.modified, type := seen.type
      lastUpdated := time }

/-- The account of a path after an upsert, where the next new file and the next new entry get the given
ids. -/
def upserted (nextFile : FileId) (nextEntry : Nat) (time : Timestamp) (path : String)
    (seen : Observation) (extracted : Extracted) (hashes : Option (List (String × String)))
    (favorite : Option FavoriteInput) : Option Account → Account
  | none =>
    { record := ⟨nextFile, path, seen.hash, seen.size, seen.modified, seen.type, time, time⟩
      explicit := extracted.explicit
      derived := extracted.derived
      history := []
      hashes := withHashes hashes []
      favorites := notedFavorites nextFile time favorite [] }
  | some account =>
    { record := account.seenAgain time seen extracted
      explicit := extracted.explicit
      derived := extracted.derived
      history :=
        (entriesFor account.record.id time nextEntry
          (FieldMap.changes account.explicit extracted.explicit)).reverse ++ account.history
      hashes := withHashes hashes account.hashes
      favorites := notedFavorites account.record.id time favorite account.favorites }

end Account

namespace Tables

variable {tables tables' : Tables} {now time : Timestamp} {path other : String} {seen : Observation}
  {extracted : Extracted} {id : FileId} {hashes : Option (List (String × String))}
  {favorite : Option FavoriteInput}

theorem fieldsAmong_eq (tables : Tables) (id : FileId) (keep : FieldRow → Bool) :
    fieldsAmong (tables.fields.getD []) id keep =
      keyed (((tables.dossier id).fields.filter keep).map fun row => (row.field, row.value)) := by
  rw [fieldsAmong, dossier, List.filter_filter]
  congr 3
  funext row
  exact Bool.and_comm _ _

/-- The account of a file depends on its own rows only. -/
theorem accountOf_congr {file : FileRecord}
    (h : tables'.dossier file.id = tables.dossier file.id) :
    tables'.accountOf file = tables.accountOf file := by
  simp only [accountOf, explicitOf, derivedOf, fieldsAmong_eq, wholeHistory_eq, hashesOf_eq, h]

theorem Consistent.file?_of_fileAt? (h : tables.Consistent) {file : FileRecord}
    (hfile : tables.fileAt? path = some file) : tables.file? file.id = some file :=
  (h.fileAt?_iff_file?.mp hfile).2

theorem Consistent.fileAt?_of_file? (h : tables.Consistent) {file : FileRecord}
    (hfile : tables.file? id = some file) : tables.fileAt? file.path = some file :=
  h.fileAt?_eq_some_iff.mpr ⟨List.mem_of_find?_eq_some hfile, rfl⟩

theorem get?_withHashes (algorithm : String) (given : Option (List (String × String)))
    (hashes : List (String × String)) :
    get? algorithm (withHashes given hashes) =
      (get? algorithm (keyed (given.getD []))).or (get? algorithm hashes) := by
  rw [withHashes, get?_foldl_put, get?_keyed]

theorem ascending_withHashes {hashes : List (String × String)} (h : Ascending hashes)
    (given : Option (List (String × String))) : Ascending (withHashes given hashes) :=
  Ascending.foldl_put _ h

theorem keyed_mergedHashes (id : FileId) (given : Option (List (String × String)))
    (rows : List HashRow) :
    keyed ((mergedHashes id given rows).map fun row => (row.algorithm, row.hash)) =
      withHashes given (keyed (rows.map fun row => (row.algorithm, row.hash))) := by
  apply (ascending_keyed _).ext (ascending_withHashes (ascending_keyed _) given)
  intro algorithm
  rw [get?_withHashes]
  cases given with
  | none => rfl
  | some given => exact get?_mergedHashes id given rows algorithm

theorem file?_updateFile_self {change : FileRecord → FileRecord} {file : FileRecord}
    (hfile : tables.file? file.id = some file) (hid : ∀ file, (change file).id = file.id) :
    (tables.updateFile file.id change).file? file.id = some (change file) := by
  rw [file?, updateFile, List.find?_map]
  have hsame : ((fun other : FileRecord => other.id == file.id) ∘
      fun other => if other.id == file.id then change other else other) =
        fun other => other.id == file.id := by
    funext other
    by_cases heq : other.id = file.id <;> simp [heq, hid]
  rw [hsame, ← file?, hfile]
  simp

theorem Stored.file?_of_new (h : Stored tables now path seen extracted tables' id time)
    (hconsistent : tables.Consistent) (hnew : tables.fileAt? path = none) :
    tables'.file? id =
      some ⟨id, path, seen.hash, seen.size, seen.modified, seen.type, time, time⟩ := by
  cases h with
  | inserted =>
    have hnone : tables.files.find? (fun file => file.id == tables.nextFile) = none := by
      apply List.find?_eq_none.mpr
      intro file hfile heq
      exact hconsistent.not_holds_nextFile (List.mem_map.mpr ⟨file, hfile, by simpa using heq⟩)
    rw [file?, List.find?_append, hnone]
    simp
  | replaced hfile =>
    rw [hnew] at hfile
    cases hfile
  | kept hfile =>
    rw [hnew] at hfile
    cases hfile

theorem Stored.file?_of_fileAt? (h : Stored tables now path seen extracted tables' id time)
    (hconsistent : tables.Consistent) {file : FileRecord} (hfile : tables.fileAt? path = some file) :
    tables'.file? id = some ((tables.accountOf file).seenAgain time seen extracted) := by
  have hrecord := hconsistent.file?_of_fileAt? hfile
  cases h with
  | inserted hnew =>
    rw [hnew] at hfile
    cases hfile
  | @replaced file' rows entries changes time hfile' hrows hentries htime hchanges hother hfits =>
    obtain rfl : file' = file := Option.some.inj (hfile'.symm.trans hfile)
    subst hchanges
    have hnot : ¬(file'.hash = seen.hash ∧
        FieldMap.changes (tables.explicitOf file'.id) extracted.explicit = [] ∧
        tables.derivedOf file'.id = extracted.derived) := by
      rintro ⟨hhash, hexplicit, hderived⟩
      rcases hother with hne | hne | hne
      · exact hne hhash
      · exact hne hexplicit
      · exact hne hderived
    rw [Account.seenAgain, accountOf, if_neg hnot]
    exact file?_updateFile_self hrecord fun _ => rfl
  | @kept file' rows time hfile' hrows htime hhash hexplicit hderived =>
    obtain rfl : file' = file := Option.some.inj (hfile'.symm.trans hfile)
    rw [Account.seenAgain, accountOf, if_pos ⟨hhash, hexplicit, hderived⟩]
    exact file?_updateFile_self hrecord fun _ => rfl

/-- The account of the path after an upsert: what the upsert makes of the account before. -/
theorem account?_upsert (h : tables.Consistent) (hordered : extracted.Ordered)
    (hok : tables.upsert now path seen extracted hashes favorite = .ok (tables', id)) :
    ∃ time, tables'.account? path =
      some (Account.upserted tables.nextFile tables.nextEntry time path seen extracted hashes favorite
        (tables.account? path)) := by
  obtain ⟨-, stored, time, hstored, hdossier⟩ := upsert_dossier hok
  have hconsistent := (h.upsert hok).1
  obtain ⟨hexplicit, hderived⟩ := hstored.fields_eq h hordered
  have hhistory := hstored.wholeHistory_eq h
  have hrecord : tables'.file? id = stored.file? id := congrArg Dossier.record hdossier
  -- The rows of the file are those that storing leaves, with hashes and favorite brought up to date.
  have haccount : ∀ {file : FileRecord}, file.id = id → tables'.accountOf file =
      { record := file
        explicit := extracted.explicit
        derived := extracted.derived
        history := (tables.recordedBy time path extracted.explicit).reverse ++ tables.wholeHistory id
        hashes := withHashes hashes (tables.hashesOf id)
        favorites := notedFavorites id time favorite (tables.dossier id).favorites } := by
    rintro file rfl
    rw [← hhistory, ← hexplicit, ← hderived, hashesOf_eq tables,
      ← keyed_mergedHashes file.id]
    simp only [accountOf, explicitOf, derivedOf, fieldsAmong_eq, wholeHistory_eq, hashesOf_eq, hdossier]
  refine ⟨time, ?_⟩
  cases hfile : tables.fileAt? path with
  | none =>
    obtain rfl := hstored.id_eq_of_new hfile
    have hempty := h.dossier_of_not_holds h.not_holds_nextFile
    have hnew := hrecord.trans (hstored.file?_of_new h hfile)
    rw [account?, hconsistent.fileAt?_of_file? hnew, account?, hfile, Option.map_none,
      Option.map_some, haccount rfl, recordedBy_of_new hfile, wholeHistory_eq, hashesOf_eq, hempty]
    rfl
  | some file =>
    obtain rfl := hstored.id_eq_of_fileAt? hfile
    have hseen := hrecord.trans (hstored.file?_of_fileAt? h hfile)
    have hid : ((tables.accountOf file).seenAgain time seen extracted).id = file.id := by
      rw [Account.seenAgain]
      split <;> rfl
    have hpath : ((tables.accountOf file).seenAgain time seen extracted).path = path := by
      rw [Account.seenAgain]
      split <;> exact (mem_of_fileAt? hfile).2
    have hlookup := hconsistent.fileAt?_of_file? hseen
    rw [hpath] at hlookup
    rw [account?, hlookup, account?, hfile, Option.map_some, Option.map_some, haccount hid,
      recordedBy_of_fileAt? hfile]
    rfl

theorem account?_upsert_of_ne (h : tables.Consistent)
    (hok : tables.upsert now path seen extracted hashes favorite = .ok (tables', id))
    (hne : other ≠ path) : tables'.account? other = tables.account? other := by
  obtain ⟨hothers, stored, time, hstored, hdossier⟩ := upsert_dossier hok
  have hconsistent := (h.upsert hok).1
  have hrecord : tables'.file? id = stored.file? id := congrArg Dossier.record hdossier
  -- The file with the id of the upsert has its path, before (if it was there) and after.
  have hbefore : ∀ {file : FileRecord}, tables.file? id = some file → file.path = path := by
    intro file hfile
    cases hknown : tables.fileAt? path with
    | none =>
      obtain rfl := hstored.id_eq_of_new hknown
      have hheld := List.mem_of_find?_eq_some hfile
      have hid : file.id = tables.nextFile := by simpa using List.find?_some hfile
      exact absurd (hid ▸ List.mem_map.mpr ⟨file, hheld, rfl⟩) h.not_holds_nextFile
    | some known =>
      obtain rfl := hstored.id_eq_of_fileAt? hknown
      rw [h.file?_of_fileAt? hknown] at hfile
      rw [← Option.some.inj hfile]
      exact (mem_of_fileAt? hknown).2
  have hafter : ∀ {file : FileRecord}, tables'.file? id = some file → file.path = path := by
    intro file hfile
    cases hknown : tables.fileAt? path with
    | none =>
      rw [hrecord, hstored.file?_of_new h hknown] at hfile
      rw [← Option.some.inj hfile]
    | some known =>
      rw [hrecord, hstored.file?_of_fileAt? h hknown] at hfile
      rw [← Option.some.inj hfile, Account.seenAgain]
      split <;> exact (mem_of_fileAt? hknown).2
  have hsame : tables'.fileAt? other = tables.fileAt? other := by
    apply Option.ext
    intro file
    rw [hconsistent.fileAt?_iff_file?, h.fileAt?_iff_file?]
    apply and_congr_right
    intro hpath
    by_cases hid : file.id = id
    · constructor
      · intro hfile
        exact absurd (hpath.symm.trans (hafter (hid ▸ hfile))) hne
      · intro hfile
        exact absurd (hpath.symm.trans (hbefore (hid ▸ hfile))) hne
    · have hdossier := congrArg Dossier.record (hothers file.id hid)
      exact iff_of_eq (congrArg (· = some file) hdossier)
  rw [account?, account?, hsame]
  cases hfile : tables.fileAt? other with
  | none => rfl
  | some file =>
    have hid : file.id ≠ id := by
      intro heq
      have hfound := h.file?_of_fileAt? hfile
      rw [heq] at hfound
      exact hne ((mem_of_fileAt? hfile).2.symm.trans (hbefore hfound))
    exact congrArg some (accountOf_congr (hothers file.id hid))

end Tables

/-! ### Ids and times left out -/

section Since

/-- A file id of later than some tables is left out. -/
def Tables.knownFile (since : Tables) (id : FileId) : FileId := if id < since.nextFile then id else 0

/-- The record without its last time and, if the file is newer than some tables, without its id and its
first time. -/
def FileRecord.since (since : Tables) (record : FileRecord) : FileRecord :=
  { record with
    id := since.knownFile record.id
    firstSeen := if record.id < since.nextFile then record.firstSeen else ""
    lastUpdated := "" }

def LedgerEntry.since (since : Tables) (entry : LedgerEntry) : LedgerEntry :=
  { entry with
    file := since.knownFile entry.file
    id := if entry.id < since.nextEntry then entry.id else 0
    recorded := if entry.id < since.nextEntry then entry.recorded else "" }

def Account.since (since : Tables) (account : Account) : Account :=
  { account with
    record := account.record.since since
    history := account.history.map (·.since since) }

variable {since : Tables} {first first' : Nat}

theorem map_since_entriesFor (hfirst : since.nextEntry ≤ first) (id : FileId) (time : Timestamp)
    (changes : List (FieldKey × Change)) :
    (entriesFor id time first changes).map (·.since since) =
      changes.map fun e => ⟨0, since.knownFile id, "", e.2.kind, e.1, e.2.old?, e.2.new?⟩ := by
  induction changes generalizing first with
  | nil => rfl
  | cons e rest ih =>
    have hnew : ¬first < since.nextEntry := by omega
    rw [entriesFor, List.map_cons, List.map_cons, ih (by omega), LedgerEntry.since, if_neg hnew,
      if_neg hnew]

theorem FileRecord.since_of_new {record : FileRecord} (h : since.nextFile ≤ record.id) :
    record.since since = { record with id := 0, firstSeen := "", lastUpdated := "" } := by
  have hnew : ¬record.id < since.nextFile := Int.not_lt.mpr h
  rw [FileRecord.since, Tables.knownFile, if_neg hnew, if_neg hnew]

theorem Account.since_seenAgain {time time' : Timestamp} {seen : Observation} {extracted : Extracted}
    {account account' : Account} (hrecord : account.record.since since = account'.record.since since)
    (hexplicit : account.explicit = account'.explicit) (hderived : account.derived = account'.derived) :
    (account.seenAgain time seen extracted).since since =
      (account'.seenAgain time' seen extracted).since since := by
  have hhash : account.record.hash = account'.record.hash :=
    (congrArg FileRecord.hash hrecord :)
  have hid : since.knownFile account.record.id = since.knownFile account'.record.id :=
    (congrArg FileRecord.id hrecord :)
  have hpath : account.record.path = account'.record.path :=
    (congrArg FileRecord.path hrecord :)
  have hfirstSeen := congrArg FileRecord.firstSeen hrecord
  simp only [FileRecord.since] at hfirstSeen
  rw [seenAgain, seenAgain, hhash, hexplicit, hderived]
  split
  · exact hrecord
  · simp only [FileRecord.since, hid, hpath, hfirstSeen]

/-- Accounts that are equal but for new ids and times are so after the same upsert, whatever new ids and
times it brings. -/
theorem Account.since_upserted {next next' : FileId} {time time' : Timestamp} {path : String}
    {seen : Observation} {extracted : Extracted} {hashes : Option (List (String × String))}
    {account account' : Option Account} (hnext : since.nextFile ≤ next)
    (hnext' : since.nextFile ≤ next') (hfirst : since.nextEntry ≤ first)
    (hfirst' : since.nextEntry ≤ first')
    (h : account.map (·.since since) = account'.map (·.since since)) :
    (upserted next first time path seen extracted hashes none account).since since =
      (upserted next' first' time' path seen extracted hashes none account').since since := by
  cases account with
  | none =>
    cases account' with
    | some account' => cases h
    | none =>
      rw [Account.since, Account.since, FileRecord.since_of_new hnext, FileRecord.since_of_new hnext']
      rfl
  | some account =>
    cases account' with
    | none => cases h
    | some account' =>
      have heq : account.since since = account'.since since := Option.some.inj h
      have hrecord : account.record.since since = account'.record.since since :=
        (congrArg Account.record heq :)
      have hexplicit : account.explicit = account'.explicit :=
        (congrArg Account.explicit heq :)
      have hderived : account.derived = account'.derived :=
        (congrArg Account.derived heq :)
      have hhashes : account.hashes = account'.hashes :=
        (congrArg Account.hashes heq :)
      have hfavorites : account.favorites = account'.favorites :=
        (congrArg Account.favorites heq :)
      have hhistory : account.history.map (·.since since) = account'.history.map (·.since since) :=
        (congrArg Account.history heq :)
      have hid : since.knownFile account.record.id = since.knownFile account'.record.id :=
        (congrArg FileRecord.id hrecord :)
      have hseen : (account.seenAgain time seen extracted).since since =
          (account'.seenAgain time' seen extracted).since since :=
        since_seenAgain hrecord hexplicit hderived
      simp only [upserted, Account.since, hseen, List.map_append, List.map_reverse,
        map_since_entriesFor hfirst, map_since_entriesFor hfirst', hid, hexplicit, hhistory, hhashes,
        hfavorites, notedFavorites]

end Since

end Catalog
