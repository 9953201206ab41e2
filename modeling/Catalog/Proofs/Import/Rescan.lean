import Catalog.Proofs.Import.Pipeline

/-! Scanning the same files again. What a scan has stored is current, and storing it again only moves the
time at which it was last stored, unless a file that looks like it was stored in its place. -/

namespace Catalog

open Catalog.Files Catalog.Import Catalog.Order

/-! ### Current accounts -/

theorem Extracted.Ordered.changes_self {extracted : Extracted} (h : extracted.Ordered) :
    FieldMap.changes extracted.explicit extracted.explicit = [] :=
  (FieldMap.changes_eq_nil_iff h.explicit h.explicit).mpr rfl

namespace Account

/-- The account says what there is to store of the file. -/
structure Current (account : Account) (delivery : Delivery) : Prop where
  hash : account.record.hash = delivery.seen.hash
  explicit : account.explicit = delivery.extracted.explicit
  derived : account.derived = delivery.extracted.derived
  hashes : withHashes delivery.hashes account.hashes = account.hashes

/-- The account without the time at which the file was last stored. -/
def timeless (account : Account) : Account :=
  { account with record := { account.record with lastUpdated := "" } }

variable {account : Account} {delivery : Delivery} {next : FileId} {first : Nat} {time : Timestamp}
  {path : String}

theorem withHashes_withHashes {hashes : List (String × String)} (h : Ascending hashes)
    (given : Option (List (String × String))) :
    withHashes given (withHashes given hashes) = withHashes given hashes := by
  have hgiven := Tables.ascending_withHashes h given
  apply (Tables.ascending_withHashes hgiven given).ext hgiven
  intro algorithm
  rw [Tables.get?_withHashes, Tables.get?_withHashes, ← Option.or_assoc, Option.or_self]

theorem current_upserted {known : Option Account}
    (hknown : ∀ account, known = some account → Ascending account.hashes) :
    (upserted next first time path delivery.seen delivery.extracted delivery.hashes none
      known).Current delivery := by
  cases known with
  | none => exact ⟨rfl, rfl, rfl, withHashes_withHashes .nil _⟩
  | some account =>
    refine ⟨?_, rfl, rfl, withHashes_withHashes (hknown account rfl) _⟩
    rw [upserted, seenAgain]
    split
    · rename_i hsame
      exact hsame.1
    · rfl

end Account

namespace Tables

variable {tables tables' : Tables} {path : String} {account : Account} {delivery : Delivery}

theorem ascending_hashes (h : tables.account? path = some account) : Ascending account.hashes := by
  obtain ⟨file, -, rfl⟩ := Option.map_eq_some_iff.mp h
  exact ascending_keyed _

/-- The tables hold the same, the times apart at which files were last stored. -/
structure SameButTimes (tables tables' : Tables) : Prop where
  fields : tables'.fields = tables.fields
  ledger : tables'.ledger = tables.ledger
  favorites : tables'.favorites = tables.favorites
  nextFile : tables'.nextFile = tables.nextFile
  nextEntry : tables'.nextEntry = tables.nextEntry
  accounts : ∀ path,
    (tables'.account? path).map Account.timeless = (tables.account? path).map Account.timeless

theorem SameButTimes.refl (tables : Tables) : tables.SameButTimes tables :=
  ⟨rfl, rfl, rfl, rfl, rfl, fun _ => rfl⟩

theorem SameButTimes.trans {tables'' : Tables} (h : tables.SameButTimes tables')
    (h' : tables'.SameButTimes tables'') : tables.SameButTimes tables'' :=
  ⟨h'.fields.trans h.fields, h'.ledger.trans h.ledger, h'.favorites.trans h.favorites,
    h'.nextFile.trans h.nextFile, h'.nextEntry.trans h.nextEntry,
    fun path => (h'.accounts path).trans (h.accounts path)⟩

end Tables

/-! ### Scans of what is settled -/

namespace Store

variable {store : Store} {files : FileTree} {now : Timestamp} {path other : Path}

/-- If the file at a path can be taken in, then its account is current already. -/
def Settled (store : Store) (files : FileTree) (path : Path) : Prop :=
  store.accepts files path = true → ∃ delivery account,
    store.delivery? files path = some delivery ∧ store.tables.account? path.text = some account ∧
      account.Current delivery

theorem settled_of_not_accepts (h : store.accepts files path = false) :
    store.Settled files path := by
  intro hyes
  rw [h] at hyes
  cases hyes

theorem settled_takeIn_self (h : store.tables.Consistent) :
    (takeIn store files now path).1.Settled files path := by
  cases haccepts : store.accepts files path with
  | false =>
    rw [takeIn_of_not_accepts h now haccepts]
    exact settled_of_not_accepts haccepts
  | true =>
    obtain ⟨delivery, time, hdelivery, haccount⟩ := account?_takeIn_self h now haccepts
    intro _
    refine ⟨delivery, _, (delivery?_takeIn h).trans hdelivery, haccount, ?_⟩
    exact Account.current_upserted fun account hknown => Tables.ascending_hashes hknown

theorem Settled.takeIn (hsettled : store.Settled files other) (h : store.tables.Consistent)
    (hapart : other.text = path.text → other = path) (now : Timestamp) :
    (takeIn store files now path).1.Settled files other := by
  by_cases heq : other.text = path.text
  · rw [hapart heq]
    exact settled_takeIn_self h
  · intro hyes
    rw [accepts_takeIn_of_ne h heq] at hyes
    obtain ⟨delivery, account, hdelivery, haccount, hcurrent⟩ := hsettled hyes
    refine ⟨delivery, account, (delivery?_takeIn h).trans hdelivery, ?_, hcurrent⟩
    rw [account?_takeIn_of_ne h heq, haccount]

end Store

namespace Import

variable {store : Store} {files : FileTree} {clock : Nat → Timestamp} {paths : List Path}
  {path : Path}

end Import

/-! ### Scans of what is decided -/

namespace Layout

variable {layout : Layout} {account account' : Account} {delivery other : Delivery}

theorem admits_some : layout.admits (some account) delivery =
    (layout.admits none delivery && (layout.ledger && (!layout.ledgerClosed ||
      (FieldMap.changes account.explicit delivery.extracted.explicit).isEmpty))) := by
  rw [admits, admits, Option.all_some, Option.all_none, Bool.and_true]

end Layout

namespace Store

variable {store : Store} {files : FileTree} {now : Timestamp} {path other : Path}

/-- The file at a path is refused unless its path is known. -/
def Decided (store : Store) (files : FileTree) (path : Path) : Prop :=
  store.tables.account? path.text = none → store.accepts files path = false

theorem account?_takeIn_ne_none (h : store.tables.Consistent) (now : Timestamp)
    (hyes : store.accepts files path = true) :
    (takeIn store files now path).1.tables.account? path.text ≠ none := by
  obtain ⟨delivery, time, -, haccount⟩ := account?_takeIn_self h now hyes
  rw [haccount]
  exact Option.some_ne_none _

theorem Decided.takeIn (hdecided : store.Decided files other) (h : store.tables.Consistent)
    (now : Timestamp) (path : Path) : (takeIn store files now path).1.Decided files other := by
  intro hnone
  by_cases heq : other.text = path.text
  · cases haccepts : store.accepts files path with
    | false =>
      rw [takeIn_of_not_accepts h now haccepts] at hnone ⊢
      exact hdecided hnone
    | true => exact absurd (heq ▸ hnone) (account?_takeIn_ne_none h now haccepts)
  · rw [account?_takeIn_of_ne h heq] at hnone
    rw [accepts_takeIn_of_ne h heq, hdecided hnone]

theorem accepts_of_some {delivery : Delivery} {account : Account}
    (hdelivery : store.delivery? files path = some delivery)
    (haccount : store.tables.account? path.text = some account)
    (hsame : account.explicit = delivery.extracted.explicit) :
    store.accepts files path =
      (store.tables.layout.admits none delivery && store.tables.ledger.isSome) := by
  have hchanges : FieldMap.changes account.explicit delivery.extracted.explicit = [] := by
    rw [hsame, (ordered_of_delivery? hdelivery).changes_self]
  rw [accepts_eq hdelivery, haccount, Layout.admits_some, hchanges, List.isEmpty_nil, Bool.or_true,
    Bool.and_true]
  rfl

/-- A file that was taken in can be taken in again exactly if there is a ledger. -/
theorem accepts_takeIn_self (h : store.tables.Consistent) (now : Timestamp) :
    (takeIn store files now path).1.accepts files path =
      (store.accepts files path && store.tables.ledger.isSome) := by
  cases haccepts : store.accepts files path with
  | false => rw [takeIn_of_not_accepts h now haccepts, haccepts, Bool.false_and]
  | true =>
    obtain ⟨delivery, time, hdelivery, haccount⟩ := account?_takeIn_self h now haccepts
    have hadmits : store.tables.layout.admits none delivery = true := by
      rw [accepts_eq hdelivery, Layout.admits, Bool.and_eq_true] at haccepts
      rw [Layout.admits, haccepts.1, Option.all_none, Bool.and_true]
    rw [accepts_of_some ((delivery?_takeIn h).trans hdelivery) haccount, layout_takeIn h, hadmits,
      ledger_takeIn h]
    cases store.tables.account? path.text <;> rfl

end Store

namespace Import

variable {store : Store} {files : FileTree} {clock : Nat → Timestamp} {paths : List Path}
  {path : Path}

section Again

variable {paths' : List Path}

end Again

section Instances

end Instances

end Import

end Catalog
