import Catalog.Proofs.Store.Account

/-! Taking a file in. Whether that succeeds, and what becomes of the account of its path as that is shown,
depends on this account and on the tables that are there: not on other files, ids or the clock. -/

namespace Catalog

open Catalog.Files Catalog.Import

/-- What there is to store of a file. -/
structure Delivery where
  seen : Observation
  extracted : Extracted
  hashes : Option (List (String × String))

/-- Which of the tables that a scan writes to are there, and whether the ledger takes entries. -/
structure Layout where
  fields : Bool
  ledger : Bool
  ledgerClosed : Bool
  hashes : Bool
deriving DecidableEq

def Tables.layout (tables : Tables) : Layout :=
  ⟨tables.fields.isSome, tables.ledger.isSome, tables.ledgerClosed, tables.hashes.isSome⟩

/-- A delivery for a path of which the given account is known can be stored. -/
def Layout.admits (layout : Layout) (known : Option Account) (delivery : Delivery) : Bool :=
  layout.fields && (layout.hashes || delivery.hashes.isNone) &&
    known.all fun account =>
      layout.ledger && (!layout.ledgerClosed ||
        (FieldMap.changes account.explicit delivery.extracted.explicit).isEmpty)

namespace Import

/-- What there is to store of the file at a path; nothing if nothing can be learned from it. -/
def delivery? (rules : FlattenRules) (files : FileTree) (path : Path) : Option Delivery := do
  let job ← (Job.ofPath files path).toOption
  let seen ← (Observation.ofPath files path).toOption
  pure ⟨seen, .ofDocument rules job.document, job.hashes⟩

theorem Job.ofPath_eq_ok_iff {files : FileTree} {path : Path} {job : Job} :
    Job.ofPath files path = .ok job ↔ ∃ content modified start sidecar,
      files.stat path = .ok (.file content modified) ∧
        content.readStart Media.sniffed = .ok start ∧ readSidecar files path = .ok sidecar ∧
          ⟨path, merged (ownFields path content) sidecar, imageHashes path content⟩ = job := by
  rw [ofPath]
  cases files.stat path with
  | error cause => simp
  | ok entry =>
    cases entry with
    | directory => simp
    | link => simp
    | file content modified =>
      cases hstart : content.readStart Media.sniffed with
      | error cause => simp [hstart]
      | ok start => cases hsidecar : readSidecar files path <;> simp [hstart]

theorem Job.path_ofPath {files : FileTree} {path : Path} {job : Job}
    (h : Job.ofPath files path = .ok job) : job.path = path := by
  obtain ⟨content, modified, start, sidecar, -, -, -, rfl⟩ := Job.ofPath_eq_ok_iff.mp h
  rfl

theorem extracted_of_delivery? {rules : FlattenRules} {files : FileTree} {path : Path}
    {delivery : Delivery} (h : delivery? rules files path = some delivery) :
    ∃ document, delivery.extracted = .ofDocument rules document := by
  obtain ⟨job, -, h⟩ := Option.bind_eq_some_iff.mp h
  obtain ⟨seen, -, h⟩ := Option.bind_eq_some_iff.mp h
  cases h
  exact ⟨job.document, rfl⟩

theorem ordered_of_delivery? {rules : FlattenRules} {files : FileTree} {path : Path}
    {delivery : Delivery} (h : delivery? rules files path = some delivery) :
    delivery.extracted.Ordered := by
  obtain ⟨document, hdocument⟩ := extracted_of_delivery? h
  rw [hdocument]
  exact Extracted.ordered_ofDocument rules document

end Import

namespace Tables

variable {tables tables' : Tables} {path : String} {delivery : Delivery}

theorem admits_iff : tables.Admits path delivery.extracted.explicit delivery.hashes none ↔
    tables.layout.admits (tables.account? path) delivery = true := by
  have hknown : (∀ file, tables.fileAt? path = some file → tables.ledger.isSome ∧
      (FieldMap.changes (tables.explicitOf file.id) delivery.extracted.explicit = [] ∨
        tables.ledgerClosed = false)) ↔
      ((tables.account? path).all fun account =>
        tables.ledger.isSome && (!tables.ledgerClosed ||
          (FieldMap.changes account.explicit delivery.extracted.explicit).isEmpty)) = true := by
    rw [account?]
    cases tables.fileAt? path with
    | none => simp
    | some file => simp [accountOf, or_comm]
  have hhashes : (delivery.hashes.isSome → tables.hashes.isSome) ↔
      (tables.hashes.isSome || delivery.hashes.isNone) = true := by
    cases delivery.hashes <;> simp
  rw [Layout.admits, Bool.and_eq_true, Bool.and_eq_true]
  constructor
  · intro h
    exact ⟨⟨h.fields, hhashes.mp h.hashes⟩, hknown.mp h.ledger⟩
  · rintro ⟨⟨hfields, hthere⟩, hledger⟩
    exact ⟨hfields, hknown.mpr hledger, hhashes.mpr hthere, fun h => by cases h⟩

section Upsert

variable {now : Timestamp} {seen : Observation} {extracted : Extracted} {id : FileId}
  {hashes : Option (List (String × String))} {favorite : Option FavoriteInput}

theorem Stored.layout_eq {time : Timestamp}
    (h : Stored tables now path seen extracted tables' id time) :
    tables'.layout = tables.layout ∧ tables.nextEntry ≤ tables'.nextEntry := by
  cases h with
  | inserted _ hrows =>
    exact ⟨by rw [layout, layout, hrows]; rfl, Nat.le_refl _⟩
  | replaced _ hrows hentries =>
    exact ⟨by rw [layout, layout, hrows, hentries]; rfl, Nat.le_add_right _ _⟩
  | kept => exact ⟨rfl, Nat.le_refl _⟩

theorem layout_upsert
    (h : tables.upsert now path seen extracted hashes favorite = .ok (tables', id)) :
    tables'.layout = tables.layout := by
  obtain ⟨stored, time, marked, hstored, hhashes, hfavorite⟩ := upsert_ok h
  have hmarked : marked.layout = stored.layout := by
    rcases hhashes with ⟨-, rfl⟩ | ⟨given, -, hput⟩
    · rfl
    · obtain ⟨rows, hrows, rfl⟩ := putHashes_ok hput
      rw [layout, layout, hrows]
      rfl
  rcases hfavorite with ⟨-, rfl⟩ | ⟨input, -, hset⟩
  · rw [hmarked, hstored.layout_eq.1]
  · obtain ⟨rows, -, rfl⟩ := setFavorite_ok hset
    exact hmarked.trans hstored.layout_eq.1

theorem counters_le_upsert
    (h : tables.upsert now path seen extracted hashes favorite = .ok (tables', id)) :
    tables.nextFile ≤ tables'.nextFile ∧ tables.nextEntry ≤ tables'.nextEntry := by
  obtain ⟨stored, time, hashRows, favoriteRows, hstored, rfl⟩ := upsert_stored h
  exact ⟨hstored.nextFile_le, hstored.layout_eq.2⟩

end Upsert

end Tables

namespace Store

def delivery? (store : Store) (files : FileTree) (path : Path) : Option Delivery :=
  Import.delivery? store.settings.flatten files path

def accepts (store : Store) (files : FileTree) (path : Path) : Bool :=
  (store.delivery? files path).any (store.tables.layout.admits (store.tables.account? path.text))

variable {store : Store} {files : FileTree} {now : Timestamp} {path other : Path}

theorem accepts_eq {delivery : Delivery} (hdelivery : store.delivery? files path = some delivery) :
    store.accepts files path =
      store.tables.layout.admits (store.tables.account? path.text) delivery := by
  rw [accepts, hdelivery, Option.any_some]

theorem upsert_isOk_iff_accepts (h : store.tables.Consistent) {delivery : Delivery}
    (hdelivery : store.delivery? files path = some delivery) (now : Timestamp) :
    (∃ done, store.tables.upsert now path.text delivery.seen delivery.extracted delivery.hashes none =
        .ok done) ↔ store.accepts files path = true := by
  obtain ⟨document, hdocument⟩ := extracted_of_delivery? hdelivery
  have hnodup : ((delivery.extracted.explicit ++ delivery.extracted.derived).map (·.1)).Nodup := by
    rw [hdocument]
    exact Extracted.nodup_ofDocument _ _
  rw [accepts_eq hdelivery, ← Tables.admits_iff]
  exact Tables.upsert_isOk_iff h hnodup now path.text delivery.seen delivery.hashes none

/-- What is taken in is what there is to store of the file. -/
theorem takeIn_eq (store : Store) (files : FileTree) (now : Timestamp) (path : Path) :
    takeIn store files now path =
      match store.delivery? files path with
      | none => (store, false)
      | some delivery =>
        match store.tables.upsert now path.text delivery.seen delivery.extracted delivery.hashes none with
        | .ok done => ({ store with tables := done.1 }, true)
        | .error _ => (store, false) := by
  rw [takeIn, delivery?, Import.delivery?]
  cases hjob : Job.ofPath files path with
  | error cause => rfl
  | ok job =>
    rw [write, Job.path_ofPath hjob, upsert]
    cases Observation.ofPath files path with
    | error cause => rfl
    | ok seen =>
      dsimp only [Except.toOption, Option.bind_some, Option.pure_def, bind]
      cases store.tables.upsert now path.text seen (.ofDocument store.settings.flatten job.document)
        job.hashes none <;> rfl

/-- A file is either taken in, by an upsert of what there is to store of it, or nothing happens. -/
theorem takeIn_cases (h : store.tables.Consistent) (files : FileTree) (now : Timestamp)
    (path : Path) :
    (store.accepts files path = false ∧ takeIn store files now path = (store, false)) ∨
      ∃ delivery tables id, store.delivery? files path = some delivery ∧
        store.accepts files path = true ∧
        store.tables.upsert now path.text delivery.seen delivery.extracted delivery.hashes none =
          .ok (tables, id) ∧
        takeIn store files now path = ({ store with tables }, true) := by
  rw [takeIn_eq]
  cases hdelivery : store.delivery? files path with
  | none => exact .inl ⟨by rw [accepts, hdelivery, Option.any_none], rfl⟩
  | some delivery =>
    have hupsert := upsert_isOk_iff_accepts h hdelivery now
    dsimp only
    cases hresult : store.tables.upsert now path.text delivery.seen delivery.extracted delivery.hashes
        none with
    | error fault =>
      refine .inl ⟨?_, rfl⟩
      rw [← Bool.not_eq_true, ← hupsert, hresult]
      rintro ⟨done, hdone⟩
      cases hdone
    | ok done => exact .inr ⟨_, done.1, done.2, rfl, hupsert.mp ⟨done, hresult⟩, hresult, rfl⟩

theorem takeIn_snd (h : store.tables.Consistent) (files : FileTree) (now : Timestamp)
    (path : Path) : (takeIn store files now path).2 = store.accepts files path := by
  rcases takeIn_cases h files now path with ⟨hno, hdone⟩ | ⟨_, _, _, -, hyes, -, hdone⟩
  · rw [hdone, hno]
  · rw [hdone, hyes]

theorem takeIn_of_not_accepts (h : store.tables.Consistent) (now : Timestamp)
    (hno : store.accepts files path = false) :
    (takeIn store files now path).1 = store := by
  rcases takeIn_cases h files now path with ⟨-, hdone⟩ | ⟨_, _, _, -, hyes, -, -⟩
  · rw [hdone]
  · rw [hno] at hyes
    cases hyes

theorem takeIn_keeps {p : Tables → Prop} (h : store.tables.Consistent) (hp : p store.tables)
    (hstep : ∀ {delivery : Delivery} {tables : Tables} {id : FileId},
      store.tables.upsert now path.text delivery.seen delivery.extracted delivery.hashes none =
        .ok (tables, id) → p tables) :
    p (takeIn store files now path).1.tables := by
  rcases takeIn_cases h files now path with ⟨-, hdone⟩ | ⟨_, _, _, -, -, hupsert, hdone⟩
  · rw [hdone]
    exact hp
  · rw [hdone]
    exact hstep hupsert

theorem settings_takeIn (h : store.tables.Consistent) :
    (takeIn store files now path).1.settings = store.settings := by
  rcases takeIn_cases h files now path with ⟨-, hdone⟩ | ⟨_, _, _, -, -, -, hdone⟩ <;> rw [hdone]

theorem consistent_takeIn (h : store.tables.Consistent) :
    (takeIn store files now path).1.tables.Consistent :=
  takeIn_keeps h h fun hok => (h.upsert hok).1

theorem layout_takeIn (h : store.tables.Consistent) :
    (takeIn store files now path).1.tables.layout = store.tables.layout :=
  takeIn_keeps (p := fun tables => tables.layout = store.tables.layout) h rfl fun hok =>
    Tables.layout_upsert hok

theorem ledger_takeIn (h : store.tables.Consistent) :
    (takeIn store files now path).1.tables.ledger.isSome = store.tables.ledger.isSome :=
  congrArg Layout.ledger (layout_takeIn h)

theorem account?_takeIn_of_ne {key : String} (h : store.tables.Consistent) (hne : key ≠ path.text) :
    (takeIn store files now path).1.tables.account? key = store.tables.account? key :=
  takeIn_keeps (p := fun tables => tables.account? key = store.tables.account? key) h rfl
    fun hok => Tables.account?_upsert_of_ne h hok hne

theorem account?_takeIn_self (h : store.tables.Consistent) (now : Timestamp)
    (hyes : store.accepts files path = true) :
    ∃ delivery time, store.delivery? files path = some delivery ∧
      (takeIn store files now path).1.tables.account? path.text =
        some (Account.upserted store.tables.nextFile store.tables.nextEntry time path.text delivery.seen
          delivery.extracted delivery.hashes none (store.tables.account? path.text)) := by
  rcases takeIn_cases h files now path with ⟨hno, -⟩ | ⟨delivery, _, _, hdelivery, -, hok, hdone⟩
  · rw [hno] at hyes
    cases hyes
  · obtain ⟨time, haccount⟩ := Tables.account?_upsert h (ordered_of_delivery? hdelivery) hok
    exact ⟨delivery, time, hdelivery, by rw [hdone, haccount]⟩

theorem delivery?_takeIn (h : store.tables.Consistent) :
    (takeIn store files now path).1.delivery? files other = store.delivery? files other := by
  rw [delivery?, settings_takeIn h, delivery?]

theorem accepts_takeIn_of_ne (h : store.tables.Consistent) (hne : other.text ≠ path.text) :
    (takeIn store files now path).1.accepts files other = store.accepts files other := by
  rw [accepts, delivery?_takeIn h, layout_takeIn h, account?_takeIn_of_ne h hne, accepts]

end Store

end Catalog
