import Catalog.Proofs.Field.Normalized
import Catalog.Proofs.Store.Dossier

/-! When an upsert succeeds. It needs its tables, and if the file is known and its fields change, a
ledger that takes entries; nothing else that the tables hold can stand in its way. -/

namespace Catalog

open Catalog.Order

/-- No field is both explicit and derived: what a document gives itself is not derived. -/
theorem Extracted.nodup_ofDocument (rules : FlattenRules) (document : Json.Value) :
    (((ofDocument rules document).explicit ++ (ofDocument rules document).derived).map
      (·.1)).Nodup :=
  FieldMap.nodup_append_normalized (ascending_flatten _ _) _

namespace Tables

variable {tables : Tables} {now : Timestamp} {path : String} {seen : Observation}
  {extracted : Extracted} {id : FileId}

/-! ### Inserting and appending -/

theorem insertFields_eq_ok {rows : List FieldRow} {derived : Bool} {fields : FieldMap}
    (hrows : tables.fields = some rows)
    (hfree : ∀ row ∈ rows, row.file = id → row.field ∉ fields.map (·.1))
    (hnodup : (fields.map (·.1)).Nodup) :
    tables.insertFields id derived fields =
      .ok { tables with fields := some (rows ++ rowsOf id derived fields) } := by
  induction fields generalizing tables rows with
  | nil =>
    rw [insertFields, rowsOf, List.map_nil, List.append_nil, ← hrows]
  | cons e rest ih =>
    obtain ⟨field, value⟩ := e
    obtain ⟨hnew, hrest⟩ := List.nodup_cons.mp hnodup
    have hunused : (rows.any fun row => row.file == id && row.field == field) = false := by
      rw [List.any_eq_false]
      intro row hrow hsame
      obtain ⟨hfile, hfield⟩ : row.file = id ∧ row.field = field := by simpa using hsame
      exact hfree row hrow hfile (hfield ▸ List.mem_cons_self)
    rw [insertFields, hrows]
    simp only [need, bind, Except.bind, hunused, Bool.false_eq_true, if_false]
    rw [ih rfl _ hrest]
    · simp [rowsOf]
    · intro row hrow hfile hmem
      rcases List.mem_append.mp hrow with hold | hadded
      · exact hfree row hold hfile (List.mem_cons_of_mem _ hmem)
      · rw [List.mem_singleton.mp hadded] at hmem
        exact hnew hmem

/-- Where no row of the file is left, all that a document yields can be inserted. -/
theorem insertExtracted_eq_ok {rows : List FieldRow} (hrows : tables.fields = some rows)
    (hfree : ∀ row ∈ rows, row.file ≠ id)
    (hnodup : ((extracted.explicit ++ extracted.derived).map (·.1)).Nodup) :
    tables.insertExtracted id extracted =
      .ok { tables with fields := some (rows ++ fieldRows id extracted) } := by
  rw [List.map_append] at hnodup
  obtain ⟨hexplicit, hderived, hapart⟩ := List.nodup_append.mp hnodup
  have hfirst : tables.insertFields id false extracted.explicit =
      .ok { tables with fields := some (rows ++ rowsOf id false extracted.explicit) } :=
    insertFields_eq_ok hrows (fun row hrow hfile => absurd hfile (hfree row hrow)) hexplicit
  rw [insertExtracted, hfirst]
  simp only [bind, Except.bind]
  rw [insertFields_eq_ok rfl _ hderived, fieldRows, List.append_assoc]
  intro row hrow hfile hmem
  rcases List.mem_append.mp hrow with hold | hadded
  · exact hfree row hold hfile
  · obtain ⟨e, he, rfl⟩ := List.mem_map.mp hadded
    exact hapart e.1 (List.mem_map.mpr ⟨e, he, rfl⟩) e.1 hmem rfl

theorem exists_appendChanges {recorded : Timestamp} {changes : List (FieldKey × Change)}
    (hledger : tables.ledger.isSome) (hopen : tables.ledgerClosed = false) :
    ∃ tables', tables.appendChanges id recorded changes = .ok tables' := by
  induction changes generalizing tables with
  | nil =>
    obtain ⟨entries, hentries⟩ := Option.isSome_iff_exists.mp hledger
    exact ⟨tables, by rw [appendChanges, hentries]; rfl⟩
  | cons e rest ih =>
    obtain ⟨entries, hentries⟩ := Option.isSome_iff_exists.mp hledger
    simp only [appendChanges, appendEntry, hentries, need, hopen, bind, Except.bind,
      Bool.false_eq_true, if_false, pure, Except.pure]
    apply ih
    · rfl
    · rfl

theorem appendChanges_isOk_iff {recorded : Timestamp} {changes : List (FieldKey × Change)} :
    (∃ tables', tables.appendChanges id recorded changes = .ok tables') ↔
      tables.ledger.isSome ∧ (changes = [] ∨ tables.ledgerClosed = false) := by
  constructor
  · rintro ⟨done, hdone⟩
    cases changes with
    | nil =>
      obtain ⟨entries, hneed, -⟩ := map_eq_ok_iff.mp hdone
      exact ⟨by rw [need_eq_ok_iff.mp hneed]; rfl, .inl rfl⟩
    | cons e rest =>
      obtain ⟨middle, hentry, -⟩ := bind_eq_ok_iff.mp hdone
      obtain ⟨entries, hneed, htaken⟩ := bind_eq_ok_iff.mp hentry
      refine ⟨by rw [need_eq_ok_iff.mp hneed]; rfl, .inr ?_⟩
      split at htaken
      · cases htaken
      · rename_i hopen
        simpa using hopen
  · rintro ⟨hledger, rfl | hopen⟩
    · obtain ⟨entries, hentries⟩ := Option.isSome_iff_exists.mp hledger
      exact ⟨tables, by rw [appendChanges, hentries]; rfl⟩
    · exact exists_appendChanges hledger hopen

/-! ### Storing -/

/-- All tables that an upsert names are there, and the ledger takes the changes of a file that is
known. -/
structure Admits (tables : Tables) (path : String) (explicit : FieldMap)
    (hashes : Option (List (String × String))) (favorite : Option FavoriteInput) : Prop where
  fields : tables.fields.isSome
  ledger : ∀ file, tables.fileAt? path = some file →
    tables.ledger.isSome ∧
      (FieldMap.changes (tables.explicitOf file.id) explicit = [] ∨ tables.ledgerClosed = false)
  hashes : hashes.isSome → tables.hashes.isSome
  favorites : favorite.isSome → tables.favorites.isSome

theorem exists_ledgerTime (h : tables.ledger.isSome) (now : Timestamp) (id : FileId) :
    ∃ time, tables.ledgerTime id now = .ok time := by
  obtain ⟨entries, hentries⟩ := Option.isSome_iff_exists.mp h
  exact ⟨_, by rw [ledgerTime, hentries]; rfl⟩

theorem exists_storeFile (h : tables.Consistent)
    (hnodup : ((extracted.explicit ++ extracted.derived).map (·.1)).Nodup)
    (hfields : tables.fields.isSome)
    (hledger : ∀ file, tables.fileAt? path = some file → tables.ledger.isSome ∧
      (FieldMap.changes (tables.explicitOf file.id) extracted.explicit = [] ∨
        tables.ledgerClosed = false)) (now : Timestamp) (seen : Observation) :
    ∃ done, tables.storeFile now path seen extracted = .ok done := by
  obtain ⟨rows, hrows⟩ := Option.isSome_iff_exists.mp hfields
  have howned := h.fieldsOwned
  rw [hrows, Option.getD_some] at howned
  rw [storeFile]
  split
  · -- The id of a new file is unused, so none of its fields is there yet.
    rename_i hnew
    have hfree : ∀ row ∈ rows, row.file ≠ tables.nextFile := by
      intro row hrow heq
      exact h.not_holds_nextFile (heq ▸ howned row hrow)
    rw [insertFile]
    simp only [hrows, need, bind, Except.bind, pure, Except.pure]
    rw [insertExtracted_eq_ok rfl hfree hnodup]
    exact ⟨_, rfl⟩
  · rename_i file hfile
    obtain ⟨hthere, hopen⟩ := hledger file hfile
    obtain ⟨time, htime⟩ := exists_ledgerTime hthere now file.id
    rw [htime]
    simp only [bind, Except.bind]
    have hrefresh : ∃ tables', tables.refreshFile time file seen extracted = .ok tables' := by
      rw [refreshFile, hrows]
      simp only [need, bind, Except.bind]
      split
      · have hfree : ∀ row ∈ rows.filter (fun row : FieldRow => row.file != file.id),
            row.file ≠ file.id := by
          intro row hrow
          simpa using (List.mem_filter.mp hrow).2
        rw [eraseFields, hrows]
        simp only [need, bind, Except.bind, pure, Except.pure]
        rw [insertExtracted_eq_ok rfl hfree hnodup]
        dsimp only
        have happend : ∃ tables', appendChanges
            { tables with fields := some ((rows.filter fun row : FieldRow => row.file != file.id) ++
                fieldRows file.id extracted) } file.id time
            (FieldMap.changes (tables.explicitOf file.id) extracted.explicit) = .ok tables' :=
          appendChanges_isOk_iff.mpr ⟨hthere, hopen⟩
        have hexplicit : (fieldsAmong rows file.id fun row => !row.derived) =
            tables.explicitOf file.id := by
          rw [explicitOf, hrows, Option.getD_some]
        obtain ⟨tables', hdone⟩ := happend
        rw [hexplicit, hdone]
        exact ⟨_, rfl⟩
      · exact ⟨_, rfl⟩
    obtain ⟨tables', hdone⟩ := hrefresh
    rw [hdone]
    exact ⟨_, rfl⟩

theorem exists_putHashes (h : tables.hashes.isSome) (id : FileId)
    (hashes : List (String × String)) :
    ∃ tables', tables.putHashes id hashes = .ok tables' := by
  obtain ⟨rows, hrows⟩ := Option.isSome_iff_exists.mp h
  exact ⟨_, by unfold putHashes; rw [hrows]; rfl⟩

theorem exists_setFavorite {input : FavoriteInput} (h : tables.favorites.isSome) :
    ∃ tables', tables.setFavorite id input now = .ok tables' := by
  obtain ⟨rows, hrows⟩ := Option.isSome_iff_exists.mp h
  unfold setFavorite
  rw [hrows]
  simp only [need, bind, Except.bind, pure, Except.pure]
  split <;> exact ⟨_, rfl⟩

section Upsert

variable {hashes : Option (List (String × String))} {favorite : Option FavoriteInput}
  {tables' : Tables}

/-- What storing a file does to the tables is no obstacle to its hashes and its favorite. -/
theorem exists_upsert (h : tables.Consistent)
    (hnodup : ((extracted.explicit ++ extracted.derived).map (·.1)).Nodup)
    (hadmits : tables.Admits path extracted.explicit hashes favorite) (now : Timestamp)
    (seen : Observation) :
    ∃ done, tables.upsert now path seen extracted hashes favorite = .ok done := by
  obtain ⟨⟨stored, id, time⟩, hstore⟩ :=
    exists_storeFile h hnodup hadmits.fields hadmits.ledger now seen
  obtain ⟨hsameHashes, hsameFavorites⟩ := (storeFile_ok hstore).hashes_eq
  -- The hashes leave the table of favorites as it is.
  have hset : ∀ (marked : Tables) (input : FavoriteInput), marked.favorites = stored.favorites →
      favorite = some input → ∃ done, marked.setFavorite id input time = .ok done := by
    intro marked input hsame hgiven
    apply exists_setFavorite
    rw [hsame, hsameFavorites]
    exact hadmits.favorites (by rw [hgiven]; rfl)
  cases hashes with
  | none =>
    cases favorite with
    | none => exact ⟨_, bind_eq_ok_iff.mpr ⟨_, hstore, rfl⟩⟩
    | some input =>
      obtain ⟨done, hdone⟩ := hset stored input rfl rfl
      refine ⟨(done, id), bind_eq_ok_iff.mpr ⟨_, hstore, bind_eq_ok_iff.mpr ⟨stored, rfl, ?_⟩⟩⟩
      exact bind_eq_ok_iff.mpr ⟨done, hdone, rfl⟩
  | some given =>
    have hthere : stored.hashes.isSome := by
      rw [hsameHashes]
      exact hadmits.hashes rfl
    obtain ⟨marked, hput⟩ := exists_putHashes hthere id given
    have hsame : marked.favorites = stored.favorites := by
      obtain ⟨rows, -, rfl⟩ := putHashes_ok hput
      rfl
    cases favorite with
    | none => exact ⟨_, bind_eq_ok_iff.mpr ⟨_, hstore, bind_eq_ok_iff.mpr ⟨marked, hput, rfl⟩⟩⟩
    | some input =>
      obtain ⟨done, hdone⟩ := hset marked input hsame rfl
      refine ⟨(done, id), bind_eq_ok_iff.mpr ⟨_, hstore, bind_eq_ok_iff.mpr ⟨marked, hput, ?_⟩⟩⟩
      exact bind_eq_ok_iff.mpr ⟨done, hdone, rfl⟩

theorem ledger_of_storeFile {time : Timestamp} {file : FileRecord}
    (h : tables.storeFile now path seen extracted = .ok (tables', id, time))
    (hfile : tables.fileAt? path = some file) :
    tables.ledger.isSome ∧
      (FieldMap.changes (tables.explicitOf file.id) extracted.explicit = [] ∨
        tables.ledgerClosed = false) := by
  rw [storeFile, hfile] at h
  obtain ⟨latest, htime, h⟩ := bind_eq_ok_iff.mp h
  obtain ⟨stored, hrefresh, -⟩ := bind_eq_ok_iff.mp h
  obtain ⟨entries, hentries, -⟩ := ledgerTime_ok htime
  have hthere : tables.ledger.isSome := by rw [hentries]; rfl
  refine ⟨hthere, ?_⟩
  rw [refreshFile] at hrefresh
  obtain ⟨rows, hneed, hrefresh⟩ := bind_eq_ok_iff.mp hrefresh
  have hrows := need_eq_ok_iff.mp hneed
  have hexplicit : (fieldsAmong rows file.id fun row => !row.derived) =
      tables.explicitOf file.id := by
    rw [explicitOf, hrows, Option.getD_some]
  rw [hexplicit] at hrefresh
  dsimp only at hrefresh
  split at hrefresh
  · obtain ⟨erased, herase, hrefresh⟩ := bind_eq_ok_iff.mp hrefresh
    obtain ⟨inserted, hinsert, hrefresh⟩ := bind_eq_ok_iff.mp hrefresh
    obtain ⟨appended, happend, -⟩ := bind_eq_ok_iff.mp hrefresh
    obtain ⟨kept, hkept, herase⟩ := bind_eq_ok_iff.mp herase
    cases herase
    obtain ⟨rfl, -⟩ := insertExtracted_ok hinsert rfl
    exact (appendChanges_isOk_iff.mp ⟨_, happend⟩).2
  · rename_i hsame
    rw [not_or, not_or, not_not, not_not, not_not] at hsame
    exact .inl hsame.2.1

theorem admits_of_upsert
    (h : tables.upsert now path seen extracted hashes favorite = .ok (tables', id)) :
    tables.Admits path extracted.explicit hashes favorite := by
  obtain ⟨⟨_, _, _⟩, hstore, -⟩ := bind_eq_ok_iff.mp h
  obtain ⟨stored, time, marked, hstored, hhashes, hfavorite⟩ := upsert_ok h
  obtain ⟨hsameHashes, hsameFavorites⟩ := hstored.hashes_eq
  constructor
  case fields =>
    cases hstored with
    | inserted _ hrows => rw [hrows]; rfl
    | replaced _ hrows => rw [hrows]; rfl
    | kept _ hrows => rw [hrows]; rfl
  case ledger => exact fun file hfile => ledger_of_storeFile hstore hfile
  case hashes =>
    intro hgiven
    rcases hhashes with ⟨rfl, -⟩ | ⟨given, -, hput⟩
    · cases hgiven
    · obtain ⟨rows, hrows, -⟩ := putHashes_ok hput
      rw [← hsameHashes, hrows]
      rfl
  case favorites =>
    intro hgiven
    rcases hfavorite with ⟨rfl, -⟩ | ⟨input, -, hset⟩
    · cases hgiven
    · obtain ⟨rows, hrows, -⟩ := setFavorite_ok hset
      rw [← hsameFavorites]
      rcases hhashes with ⟨-, rfl⟩ | ⟨given, -, hput⟩
      · rw [hrows]
        rfl
      · obtain ⟨_, -, rfl⟩ := putHashes_ok hput
        rw [hrows]
        rfl

/-- An upsert succeeds exactly if all tables that it names are there and the ledger takes the changes. -/
theorem upsert_isOk_iff (h : tables.Consistent)
    (hnodup : ((extracted.explicit ++ extracted.derived).map (·.1)).Nodup) (now : Timestamp)
    (path : String) (seen : Observation) (hashes : Option (List (String × String)))
    (favorite : Option FavoriteInput) :
    (∃ done, tables.upsert now path seen extracted hashes favorite = .ok done) ↔
      tables.Admits path extracted.explicit hashes favorite :=
  ⟨fun ⟨_, hdone⟩ => admits_of_upsert hdone, fun hadmits => exists_upsert h hnodup hadmits now seen⟩

end Upsert

end Tables

end Catalog
