import Catalog.Proofs.Field.Normalized
import Catalog.Proofs.Store.Admission
import Catalog.Proofs.Store.Run

/-! Fields and the normalized ones derived from them are stored together. No field is of both kinds, so
none is ever refused as a duplicate. -/

namespace Catalog

open Catalog.Order

namespace Tables

/-- The step does not fail because a file has a field already. -/
def NoDuplicate {α : Type} (step : Except Fault α) : Prop :=
  ∀ field, step ≠ .error (.duplicateField field)

section Steps

variable {α β : Type}

theorem NoDuplicate.ok (value : α) : NoDuplicate (.ok value) := fun _ h => by cases h

theorem NoDuplicate.bind {step : Except Fault α} {next : α → Except Fault β} (h : NoDuplicate step)
    (hnext : ∀ value, step = .ok value → NoDuplicate (next value)) : NoDuplicate (step >>= next) := by
  cases step with
  | error fault =>
    intro field hfault
    have hsame : fault = .duplicateField field := by cases hfault; rfl
    exact h field (by rw [hsame])
  | ok value => exact hnext value rfl

theorem noDuplicate_need (table : Table) (rows : Option α) : NoDuplicate (need table rows) := by
  intro field h
  cases rows <;> cases h

end Steps

variable {tables : Tables} {now : Timestamp} {path : String} {seen : Observation}
  {extracted : Extracted} {id : FileId}

theorem noDuplicate_appendChanges (recorded : Timestamp) (changes : List (FieldKey × Change)) :
    NoDuplicate (tables.appendChanges id recorded changes) := by
  induction changes generalizing tables with
  | nil =>
    intro field h
    rw [appendChanges] at h
    cases hledger : tables.ledger <;> simp [hledger, need, Except.map] at h
  | cons e rest ih =>
    refine NoDuplicate.bind ?_ fun _ _ => ih
    refine (noDuplicate_need _ _).bind fun _ _ => ?_
    split
    · intro field h
      cases h
    · exact .ok _

theorem noDuplicate_refreshFile (file : FileRecord)
    (hnodup : ((extracted.explicit ++ extracted.derived).map (·.1)).Nodup) :
    NoDuplicate (tables.refreshFile now file seen extracted) := by
  refine (noDuplicate_need _ _).bind fun rows hrows => ?_
  dsimp only
  split
  · refine ((noDuplicate_need _ _).bind fun _ _ => .ok _).bind fun erased herased => ?_
    obtain ⟨kept, hkept, herased⟩ := bind_eq_ok_iff.mp herased
    cases herased
    -- No row of the file is left, so its fields can be inserted.
    have hfree : ∀ row ∈ kept.filter (fun row : FieldRow => row.file != file.id),
        row.file ≠ file.id := by simp
    rw [insertExtracted_eq_ok rfl hfree hnodup]
    refine (NoDuplicate.ok _).bind fun _ _ => ?_
    exact (noDuplicate_appendChanges _ _).bind fun _ _ => .ok _
  · exact .ok _

theorem noDuplicate_storeFile (h : tables.Consistent)
    (hnodup : ((extracted.explicit ++ extracted.derived).map (·.1)).Nodup) :
    NoDuplicate (tables.storeFile now path seen extracted) := by
  rw [storeFile]
  split
  · refine NoDuplicate.bind ?_ fun _ _ => .ok _
    refine (noDuplicate_need _ _).bind fun rows hrows => ?_
    have hfields : tables.fields = some rows := need_eq_ok_iff.mp hrows
    have howned := h.fieldsOwned
    rw [hfields, Option.getD_some] at howned
    have hfree : ∀ row ∈ rows, row.file ≠ tables.nextFile := fun row hrow heq =>
      h.not_holds_nextFile (heq ▸ howned row hrow)
    simp only [hfields]
    rw [insertExtracted_eq_ok rfl hfree hnodup]
    exact .ok _
  · rename_i file _
    refine NoDuplicate.bind ((noDuplicate_need _ _).bind fun _ _ => .ok _) fun _ _ => ?_
    exact (noDuplicate_refreshFile file hnodup).bind fun _ _ => .ok _

/-- An upsert does not fail because of a field that the file has already. -/
theorem noDuplicate_upsert (h : tables.Consistent)
    (hnodup : ((extracted.explicit ++ extracted.derived).map (·.1)).Nodup)
    (hashes : Option (List (String × String))) (favorite : Option FavoriteInput) :
    NoDuplicate (tables.upsert now path seen extracted hashes favorite) := by
  refine (noDuplicate_storeFile h hnodup).bind fun done _ => ?_
  obtain ⟨stored, id, time⟩ := done
  have hput : ∀ given, NoDuplicate (stored.putHashes id given) := fun given =>
    (noDuplicate_need _ _).bind fun _ _ => .ok _
  have hset : ∀ (marked : Tables) (input : FavoriteInput),
      NoDuplicate (marked.setFavorite id input time) := by
    intro marked input
    refine (noDuplicate_need _ _).bind fun _ _ => ?_
    dsimp only
    split <;> exact .ok _
  cases hashes with
  | none =>
    cases favorite with
    | none => exact .ok _
    | some input => exact (hset stored input).bind fun _ _ => .ok _
  | some given =>
    refine (hput given).bind fun marked _ => ?_
    cases favorite with
    | none => exact .ok _
    | some input => exact (hset marked input).bind fun _ _ => .ok _

end Tables

/-- No upsert of a document fails because of a field that is given and derived. -/
theorem Store.Reachable.noDuplicate_upsert {store : Store} (h : store.Reachable)
    (files : Files.FileTree) (now : Timestamp) (path : Files.Path) (document : Json.Value)
    (hashes : Option (List (String × String))) (favorite : Option FavoriteInput) (field : FieldKey) :
    (store.upsert files now path document hashes favorite).2 ≠
      .error (.storage (.duplicateField field)) := by
  intro hfault
  rw [Store.upsert] at hfault
  split at hfault
  · rename_i cause hseen
    -- Errors of reading the file are none of the storage.
    rcases Observation.ofPath_cases files path with ⟨_, _, -, hfound⟩ | ⟨_, -, hfound⟩
    · cases hfound.symm.trans hseen
    · cases hfound.symm.trans hseen
      cases hfault
  · rename_i seen _
    have hnone : Tables.NoDuplicate (store.tables.upsert now path.text seen
        (Extracted.ofDocument store.settings.flatten document) hashes favorite) :=
      Tables.noDuplicate_upsert h.consistent (Extracted.nodup_ofDocument _ _) hashes favorite
    dsimp only [Store.commit] at hfault
    split at hfault
    · cases hfault
    · rename_i fault hstep
      cases hfault
      exact hnone field hstep

namespace FieldMap

/-- The laws of normalized fields, for every map and every normalized category. What is derived has keys
that the map does not have, so that it can always be stored with the map, and no upsert fails for a key
that is there twice. A normalized field that the map does not give has the value of its best source, and
none exactly if it has no source. From the map with all that is derived nothing more is derived. -/
theorem normalized_from_best_sources {fields : FieldMap} (h : Ascending fields) (category : String) :
    let derived := fields.normalized category
    (∀ e ∈ derived, e.1 ∉ fields.map (·.1) ∧ e.1.category = category ∧
      e.1.key ∈ normalizedNames.map (·.1)) ∧
    (∀ (tables : Tables) (id : FileId) (rows : List FieldRow), tables.fields = some rows →
      (∀ row ∈ rows, row.file ≠ id) →
      tables.insertExtracted id ⟨fields, derived⟩ =
        .ok { tables with fields := some (rows ++ Tables.fieldRows id ⟨fields, derived⟩) }) ∧
    (∀ store : Store, store.Reachable → ∀ files now path document hashes favorite field,
      (store.upsert files now path document hashes favorite).2 ≠
        .error (.storage (.duplicateField field))) ∧
    (∀ name aliases, (name, aliases) ∈ normalizedNames → ⟨category, name⟩ ∉ fields.map (·.1) →
      (∀ value, get? ⟨category, name⟩ derived = some value ↔
        ∃ field rank, BestSource fields category aliases field value rank) ∧
      (get? ⟨category, name⟩ derived = none ↔
        ¬∃ field value rank, Source fields category aliases field value rank)) ∧
    FieldMap.normalized (Extracted.all ⟨fields, derived⟩) category = [] := by
  refine ⟨fun e he => mem_normalized he, ?_, ?_, ?_, normalized_all h category⟩
  · intro tables id rows hrows hfree
    exact Tables.insertExtracted_eq_ok hrows hfree (nodup_append_normalized h category)
  · intro store hstore files now path document hashes favorite field
    exact hstore.noDuplicate_upsert files now path document hashes favorite field
  · intro name aliases hname habsent
    rw [get?_normalized hname habsent]
    refine ⟨fun value => findSome?_underAlias?_eq_some_iff h, ?_⟩
    rw [findSome?_underAlias?_eq_none_iff]
    simp only [not_exists]

/-- A better alias wins over an earlier category, and among equal ones the earlier category does. A
normalized field that is given stays as it is, whatever the others say. -/
theorem normalized_of_two_cameras :
    let fields : FieldMap :=
      [(⟨"exif", "ISO"⟩, "100"), (⟨"exif", "Make"⟩, "NIKON"), (⟨"exif", "lens"⟩, "50mm"),
       (⟨"n", "lens"⟩, "EF 50mm"), (⟨"xmp", "camera_make"⟩, "Nikon Corp"), (⟨"xmp", "iso"⟩, "200")]
    Ascending fields ∧
      fields.normalized "n" = [(⟨"n", "camera_make"⟩, "Nikon Corp"), (⟨"n", "iso"⟩, "100")] ∧
      (∃ field rank, BestSource fields "n" ["camera_make", "make"] field "Nikon Corp" rank) ∧
      FieldMap.normalized (Extracted.all ⟨fields, fields.normalized "n"⟩) "n" = [] := by
  intro fields
  have hfields : Ascending fields := by
    unfold Ascending
    decide +kernel
  have hderived : fields.normalized "n" =
      [(⟨"n", "camera_make"⟩, "Nikon Corp"), (⟨"n", "iso"⟩, "100")] := by decide +kernel
  obtain ⟨-, -, -, hbest, hagain⟩ := normalized_from_best_sources hfields "n"
  have hmake := (hbest "camera_make" ["camera_make", "make"] (by decide) (by decide)).1 "Nikon Corp"
  exact ⟨hfields, hderived, hmake.mp (by rw [hderived]; decide), hagain⟩

end FieldMap

end Catalog
