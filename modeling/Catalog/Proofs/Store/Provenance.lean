import Catalog.Proofs.Store.Deposits
import Catalog.Proofs.Store.Repetition
import Catalog.Proofs.Text.Raw

/-! Where records come from. The digest, size and type of a file are those of the bytes of its latest
deposit, though only the digest is looked at where they are kept; its id and the time when it was first
seen are those of the deposit with which it was new. Another deposit of the same changes no more than the
time. -/

namespace Catalog

open Catalog.Digest Catalog.Files Catalog.Order

/-! ### Records -/

/-- The record says of the bytes what is to be said. -/
structure FileRecord.Describes (file : FileRecord) (bytes : List UInt8) : Prop where
  hash : file.hash = sha256 bytes
  size : file.size = min bytes.length (Nat.pow 2 63 - 1)
  type : file.type = Media.typeOf bytes

/-- The digest tells bytes apart that were deposited for one path. -/
def CollisionFree (log : List Deposit) : Prop :=
  ∀ a ∈ log, ∀ b ∈ log, a.path = b.path → sha256 a.bytes = sha256 b.bytes → a.bytes = b.bytes

instance CollisionFree.decidable (log : List Deposit) : Decidable (CollisionFree log) :=
  inferInstanceAs (Decidable (∀ a ∈ log, ∀ b ∈ log, a.path = b.path →
    sha256 a.bytes = sha256 b.bytes → a.bytes = b.bytes))

def latest? (log : List Deposit) (path : String) : Option Deposit :=
  log.find? fun deposit => deposit.path == path

/-- The latest deposit with which the path was new. -/
def latestNew? (log : List Deposit) (path : String) : Option Deposit :=
  log.find? fun deposit => deposit.path == path && deposit.isNew

/-- What the deposits tell of a record: the one that it describes may be an earlier one than the latest,
of which it has the digest. -/
structure Recorded (log : List Deposit) (file : FileRecord) : Prop where
  source : ∃ deposit ∈ log, deposit.path = file.path ∧ file.Describes deposit.bytes
  latest : ∃ deposit, latest? log file.path = some deposit ∧ deposit.id = file.id ∧
    file.hash = sha256 deposit.bytes
  first : ∃ deposit, latestNew? log file.path = some deposit ∧ deposit.id = file.id ∧
    deposit.now = file.firstSeen

variable {log : List Deposit} {deposit : Deposit} {file : FileRecord} {path : String}

theorem Recorded.describes (h : Recorded log file) (hfree : CollisionFree log)
    (hlatest : latest? log file.path = some deposit) : file.Describes deposit.bytes := by
  obtain ⟨source, hsource, hpath, hdescribes⟩ := h.source
  obtain ⟨other, hother, -, hhash⟩ := h.latest
  obtain rfl : other = deposit := Option.some.inj (hother.symm.trans hlatest)
  have hmem := List.mem_of_find?_eq_some hlatest
  have hsame : other.path = file.path := by simpa using List.find?_some hlatest
  have hbytes := hfree source hsource other hmem (hpath.trans hsame.symm)
    (hdescribes.hash.symm.trans hhash)
  exact hbytes ▸ hdescribes

theorem Recorded.cons_of_ne (h : Recorded log file) (hne : deposit.path ≠ file.path) :
    Recorded (deposit :: log) file where
  source := by
    obtain ⟨source, hsource, hdescribes⟩ := h.source
    exact ⟨source, List.mem_cons_of_mem _ hsource, hdescribes⟩
  latest := by
    rw [latest?, List.find?_cons_of_neg (by simpa using hne)]
    exact h.latest
  first := by
    rw [latestNew?, List.find?_cons_of_neg (by simp [hne])]
    exact h.first

theorem latest?_cons_self (h : deposit.path = path) :
    latest? (deposit :: log) path = some deposit := by
  rw [latest?, List.find?_cons_of_pos (by simpa using h)]

theorem latestNew?_cons_of_new (h : deposit.path = path) (hnew : deposit.isNew = true) :
    latestNew? (deposit :: log) path = some deposit := by
  rw [latestNew?, List.find?_cons_of_pos (by simp [h, hnew])]

theorem latestNew?_cons_of_known (hknown : deposit.isNew = false) :
    latestNew? (deposit :: log) path = latestNew? log path := by
  rw [latestNew?, List.find?_cons_of_neg (by simp [hknown])]
  rfl

theorem Recorded.seenAgain {account : Account} {time : Timestamp} {modified : Int}
    {extracted : Extracted} (h : Recorded log account.record)
    (hpath : deposit.path = account.record.path) (hid : deposit.id = account.record.id)
    (hknown : deposit.isNew = false) :
    Recorded (deposit :: log)
      (account.seenAgain time (.ofFile deposit.bytes modified) extracted) := by
  have hfirst := h.first
  rw [← latestNew?_cons_of_known hknown] at hfirst
  rw [Account.seenAgain]
  split
  · rename_i hsame
    obtain ⟨source, hsource, hsourcePath, hdescribes⟩ := h.source
    exact ⟨⟨source, List.mem_cons_of_mem _ hsource, hsourcePath, hdescribes.1, hdescribes.2,
      hdescribes.3⟩, ⟨deposit, latest?_cons_self hpath, hid, hsame.1⟩, hfirst⟩
  · exact ⟨⟨deposit, List.mem_cons_self, hpath, rfl, rfl, rfl⟩,
      ⟨deposit, latest?_cons_self hpath, hid, rfl⟩, hfirst⟩

namespace Store

variable {store store' : Store} {allowed : Intrusion → Prop}

theorem recorded_yields {deposit? : Option Deposit} (hconsistent : store.tables.Consistent)
    (hyields : store.Yields deposit? store')
    (h : ∀ file ∈ store.tables.files, Recorded log file) :
    ∀ file ∈ store'.tables.files, Recorded (deposit?.toList ++ log) file := by
  cases hyields with
  | nothing hfiles => exact fun file hfile => h file (hfiles file hfile)
  | @stored now time path bytes modified extracted stored id hashRows favoriteRows hstored =>
    intro file hfile
    rcases hstored.mem_files_cases hconsistent hfile with ⟨hold, hpath⟩ | ⟨hpath, hrecord⟩
    · exact (h file hold).cons_of_ne hpath.symm
    · cases hknown : store.tables.fileAt? path.text with
      | none =>
        rw [hstored.file?_of_new hconsistent hknown, hstored.time_eq_of_new hknown] at hrecord
        cases hrecord
        have hnew : (store.fileAt? path).isNone = true := by
          rw [fileAt?, hknown]
          rfl
        exact ⟨⟨_, List.mem_cons_self, rfl, rfl, rfl, rfl⟩, ⟨_, latest?_cons_self rfl, rfl, rfl⟩,
          ⟨_, latestNew?_cons_of_new rfl hnew, rfl, rfl⟩⟩
      | some old =>
        rw [hstored.file?_of_fileAt? hconsistent hknown] at hrecord
        obtain ⟨hmem, hsame⟩ := Tables.mem_of_fileAt? hknown
        have hnew : (store.fileAt? path).isNone = false := by
          rw [fileAt?, hknown]
          rfl
        rw [← Option.some.inj hrecord]
        exact (show Recorded log (store.tables.accountOf old).record from h old hmem).seenAgain
          hsame.symm (hstored.id_eq_of_fileAt? hknown) hnew

/-- Every record goes back to the deposits for its path. -/
theorem Logged.recorded (h : store.Logged allowed log) :
    ∀ file ∈ store.tables.files, Recorded log file := by
  induction h with
  | opened settings =>
    intro file hfile
    cases hfile
  | @step store log step hlogged ih =>
    exact recorded_yields hlogged.consistent (store.yields_run step) ih
  | @intrusion store log intrusion hallowed hlogged ih =>
    rw [(store.files_intrusion intrusion).1]
    exact ih

section Upsert

variable {files files' : FileTree} {now now' : Timestamp} {path : Path} {document : Json.Value}
  {hashes : Option (List (String × String))} {favorite : Option FavoriteInput} {id : FileId}
  {bytes : List UInt8} {modified modified' : Int}

theorem upsert_of_stat (hstat : files.stat path = .ok (.file (.sound bytes) modified)) :
    store.upsert files now path document hashes favorite =
      store.commit (store.tables.upsert now path.text (.ofFile bytes modified)
        (.ofDocument store.settings.flatten document) hashes favorite) := by
  rw [upsert, Observation.ofPath, hstat]
  rfl

/-- The same upsert again, with the same bytes, changes nothing but the time of the file; without a
ledger it fails. -/
theorem upsert_repeated (hconsistent : store.tables.Consistent)
    (hstat : files.stat path = .ok (.file (.sound bytes) modified))
    (hok : store.upsert files now path document hashes favorite = (store', .ok id))
    (hsame : files'.stat path = .ok (.file (.sound bytes) modified')) :
    (store'.tables.ledger = none ∧
        store'.upsert files' now' path document hashes favorite =
          (store', .error (.storage (.missing .ledger)))) ∨
      ∃ time, store'.upsert files' now' path document hashes favorite =
        ({ store' with tables := store'.tables.touch id time }, .ok id) := by
  rw [upsert_of_stat hstat] at hok
  obtain ⟨tables, hupsert, rfl⟩ := commit_ok hok
  have hordered := Extracted.ordered_ofDocument store.settings.flatten document
  rw [upsert_of_stat hsame]
  dsimp only
  cases hledger : tables.ledger with
  | none =>
    obtain ⟨file, hfile, -⟩ := (Tables.upsert_holding hconsistent hordered hupsert).record
    rw [Tables.upsert_without_ledger hfile hledger]
    exact .inl ⟨rfl, rfl⟩
  | some entries =>
    have hthere : tables.ledger.isSome := by
      rw [hledger]
      rfl
    obtain ⟨time, htime⟩ := Tables.exists_ledgerTime hthere now' id
    have hagain : tables.upsert now' path.text (.ofFile bytes modified')
        (.ofDocument store.settings.flatten document) hashes favorite =
          .ok (tables.touch id time, id) :=
      Tables.upsert_again hconsistent hordered hupsert rfl htime
    rw [hagain]
    exact .inr ⟨time, rfl⟩

/-- A successful upsert leaves a record that goes back to its deposit and those before. -/
theorem Logged.recorded_upsert (h : store.Logged allowed log)
    (hstat : files.stat path = .ok (.file (.sound bytes) modified))
    (hok : store.upsert files now path document hashes favorite = (store', .ok id)) :
    ∃ file, store'.fileAt? path = some file ∧ file.id = id ∧ file.path = path.text ∧
      Recorded (⟨path.text, bytes, now, id, (store.fileAt? path).isNone⟩ :: log) file := by
  have hlogged := h.step (.upsert files now path document hashes favorite)
  rw [deposit?_upsert hstat (by rw [hok]), Step.run, hok] at hlogged
  obtain ⟨seen, -, hupsert, -⟩ := upsert_ok hok
  have hordered := Extracted.ordered_ofDocument store.settings.flatten document
  obtain ⟨file, hfile, hid, -⟩ := (Tables.upsert_holding h.consistent hordered hupsert).record
  obtain ⟨hmem, hpath⟩ := Tables.mem_of_fileAt? hfile
  exact ⟨file, hfile, hid, hpath, hlogged.recorded file hmem⟩

/-- After a successful upsert the record of the file has the digest, size and type of the bytes that
were found, whichever way it was written, and the id and first time of the deposit with which the path
was new. The same upsert again moves its last time at most. -/
theorem Logged.record_after_upsert (h : store.Logged allowed log)
    (hstat : files.stat path = .ok (.file (.sound bytes) modified))
    (hok : store.upsert files now path document hashes favorite = (store', .ok id)) :
    let deposit : Deposit := ⟨path.text, bytes, now, id, (store.fileAt? path).isNone⟩
    (∃ file, store'.fileAt? path = some file ∧ file.id = id ∧ file.hash = sha256 bytes ∧
        (CollisionFree (deposit :: log) → file.Describes bytes) ∧
        ∃ first, latestNew? (deposit :: log) path.text = some first ∧ first.id = file.id ∧
          first.now = file.firstSeen) ∧
      ∀ (files' : FileTree) (now' : Timestamp) (modified' : Int),
        files'.stat path = .ok (.file (.sound bytes) modified') →
          (store'.tables.ledger = none ∧
              store'.upsert files' now' path document hashes favorite =
                (store', .error (.storage (.missing .ledger)))) ∨
            ∃ time, store'.upsert files' now' path document hashes favorite =
              ({ store' with tables := store'.tables.touch id time }, .ok id) := by
  intro deposit
  refine ⟨?_, fun files' now' modified' hsame => upsert_repeated h.consistent hstat hok hsame⟩
  obtain ⟨file, hfile, hid, hpath, hrecorded⟩ := h.recorded_upsert hstat hok
  have hlatest : latest? (deposit :: log) file.path = some deposit := latest?_cons_self hpath.symm
  obtain ⟨other, hother, -, hhash⟩ := hrecorded.latest
  obtain rfl : other = deposit := Option.some.inj (hother.symm.trans hlatest)
  exact ⟨file, hfile, hid, hhash, fun hfree => hrecorded.describes hfree hlatest,
    hpath ▸ hrecorded.first⟩

set_option maxRecDepth 2000 in
/-- A path that was deleted and stored anew is stored as it is, and once more. -/
theorem record_after_upsert_of_same_bytes :
    let files : FileTree := ⟨[(["a"], .file (.sound [1, 2]) 0)]⟩
    let document : Json.Value := .object [("c", .object [("k", .string "1")])]
    let hashes : Option (List (String × String)) := some [("dhash", "0f")]
    let steps : List Step :=
      [.upsert files "1" "a" document none none, .delete "a",
        .upsert files "3" "a" document none none]
    let store := (ofTables {} {}).afterSteps steps
    let log := (ofTables {} {}).depositsBy steps
    let done := store.upsert files "4" "a" document hashes (some ⟨none, ["x"]⟩)
    (store.Logged (fun _ => True) log ∧ files.stat "a" = .ok (.file (.sound [1, 2]) 0) ∧
        done = (done.1, .ok 2)) ∧
      (∃ file, done.1.fileAt? "a" = some file ∧ file.Describes [1, 2] ∧ file.firstSeen = "3") ∧
      ∃ time, done.1.upsert files "5" "a" document hashes (some ⟨none, ["x"]⟩) =
        ({ done.1 with tables := done.1.tables.touch 2 time }, .ok 2) := by
  intro files document hashes steps store log done
  have hlogged : store.Logged (fun _ => True) (log ++ []) := (Logged.opened {}).afterSteps steps
  rw [List.append_nil] at hlogged
  have hstat : files.stat "a" = .ok (.file (.sound [1, 2]) 0) := by decide +kernel
  have hok : done.2 = .ok 2 := by decide +kernel
  have hdone : done = (done.1, .ok 2) := by rw [← hok]
  obtain ⟨⟨file, hfile, -, -, hdescribes, first, hfirst, -, hnow⟩, hagain⟩ :=
    hlogged.record_after_upsert hstat hdone
  have hnew : (latestNew? (⟨"a", [1, 2], "4", 2, (store.fileAt? "a").isNone⟩ :: log) "a").map
      (·.now) = some "3" := by
    decide +kernel
  rw [Text.RawText.text_ofText] at hfirst
  rw [hfirst] at hnew
  refine ⟨⟨hlogged, hstat, hdone⟩, ⟨file, hfile, hdescribes (by decide +kernel), ?_⟩, ?_⟩
  · rw [← hnow]
    exact Option.some.inj hnew
  · refine (hagain files "5" 0 hstat).resolve_left fun hmissing => ?_
    have hthere : done.1.tables.ledger.isSome = true := by decide +kernel
    rw [hmissing.1] at hthere
    cases hthere

end Upsert

end Store

end Catalog
