import Catalog.Proofs.Field.Extracted
import Catalog.Store.Upsert
import Mathlib.Data.List.Pairwise

/-! The table of fields: what is stored of a file, explicit and derived, and what inserting and erasing
its rows does. -/

namespace Catalog

open Catalog.Order

/-- The rows are of different files or different fields. -/
def FieldRow.Apart (a b : FieldRow) : Prop := a.file = b.file → a.field ≠ b.field

instance FieldRow.symm_apart : Std.Symm FieldRow.Apart where
  symm _ _ h hfile hfield := h hfile.symm hfield.symm

/-- Of rows that are apart, those of one file and one field are the same. -/
theorem FieldRow.eq_of_apart {rows : List FieldRow} (h : rows.Pairwise Apart) {a b : FieldRow}
    (ha : a ∈ rows) (hb : b ∈ rows) (hfile : a.file = b.file) (hfield : a.field = b.field) :
    a = b := by
  by_contra hne
  exact h.forall ha hb hne hfile hfield

namespace Tables

/-! ### Steps that may fail -/

theorem bind_eq_ok_iff {ε α β : Type} {step : Except ε α} {next : α → Except ε β} {result : β} :
    step >>= next = .ok result ↔ ∃ value, step = .ok value ∧ next value = .ok result := by
  cases step <;> simp [bind, Except.bind]

theorem map_eq_ok_iff {ε α β : Type} {step : Except ε α} {f : α → β} {result : β} :
    step.map f = .ok result ↔ ∃ value, step = .ok value ∧ f value = result := by
  cases step <;> simp [Except.map]

theorem need_eq_ok_iff {α : Type} {table : Table} {rows : Option α} {value : α} :
    need table rows = .ok value ↔ rows = some value := by
  cases rows <;> simp [need]

/-! ### Views -/

/-- The explicit fields of a file. -/
def explicitOf (tables : Tables) (id : FileId) : FieldMap :=
  fieldsAmong (tables.fields.getD []) id fun row => !row.derived

/-- The derived fields of a file. -/
def derivedOf (tables : Tables) (id : FileId) : FieldMap :=
  fieldsAmong (tables.fields.getD []) id fun row => row.derived

theorem ascending_fieldsAmong (rows : List FieldRow) (id : FileId) (keep : FieldRow → Bool) :
    Ascending (fieldsAmong rows id keep) := ascending_keyed _

theorem nodup_fields_filter {rows : List FieldRow} (h : rows.Pairwise FieldRow.Apart) (id : FileId)
    (keep : FieldRow → Bool) :
    (((rows.filter fun row => row.file == id && keep row).map fun row =>
      (row.field, row.value)).map (·.1)).Nodup := by
  rw [List.map_map, List.Nodup, List.pairwise_map]
  refine (h.filter _).imp_of_mem fun {a b} ha hb hapart => ?_
  have hfile : a.file = b.file := by
    simp only [List.mem_filter, Bool.and_eq_true, beq_iff_eq] at ha hb
    rw [ha.2.1, hb.2.1]
  exact hapart hfile

theorem get?_fieldsAmong_eq_some_iff {rows : List FieldRow} (h : rows.Pairwise FieldRow.Apart)
    {id : FileId} {keep : FieldRow → Bool} {field : FieldKey} {value : String} :
    get? field (fieldsAmong rows id keep) = some value ↔
      ∃ row ∈ rows, row.file = id ∧ keep row ∧ row.field = field ∧ row.value = value := by
  rw [fieldsAmong, get?_keyed_eq_some_iff (nodup_fields_filter h id keep)]
  simp [and_assoc]

/-- No field of a file is both explicit and derived. -/
theorem nodup_explicitOf_derivedOf {tables : Tables}
    (h : (tables.fields.getD []).Pairwise FieldRow.Apart) (id : FileId) :
    ((tables.explicitOf id ++ tables.derivedOf id).map (·.1)).Nodup := by
  have hexplicit : Ascending (tables.explicitOf id) := ascending_fieldsAmong _ id _
  have hderived : Ascending (tables.derivedOf id) := ascending_fieldsAmong _ id _
  rw [List.map_append]
  refine List.nodup_append.mpr ⟨hexplicit.nodup, hderived.nodup, ?_⟩
  rintro field hfield _ hfield' rfl
  obtain ⟨⟨_, value⟩, hmem, rfl⟩ := List.mem_map.mp hfield
  obtain ⟨⟨_, value'⟩, hmem', heq⟩ := List.mem_map.mp hfield'
  obtain ⟨row, hrow, hfile, hkind, hname, -⟩ :=
    (get?_fieldsAmong_eq_some_iff h).mp (hexplicit.get?_eq_some_iff.mpr hmem)
  obtain ⟨row', hrow', hfile', hkind', hname', -⟩ :=
    (get?_fieldsAmong_eq_some_iff h).mp (hderived.get?_eq_some_iff.mpr hmem')
  obtain rfl := FieldRow.eq_of_apart h hrow hrow' (hfile.trans hfile'.symm)
    (hname.trans (heq.symm.trans hname'.symm))
  simp [hkind'] at hkind

/-- What is stored under a field is an explicit or a derived value. -/
theorem get?_fieldsOf_iff {tables : Tables} (h : (tables.fields.getD []).Pairwise FieldRow.Apart)
    {id : FileId} {field : FieldKey} {value : String} :
    get? field (tables.fieldsOf id) = some value ↔
      get? field (tables.explicitOf id) = some value ∨ get? field (tables.derivedOf id) = some value := by
  have hexplicit : get? field (tables.explicitOf id) = some value ↔ _ :=
    get?_fieldsAmong_eq_some_iff h
  have hderived : get? field (tables.derivedOf id) = some value ↔ _ :=
    get?_fieldsAmong_eq_some_iff h
  rw [fieldsOf, get?_fieldsAmong_eq_some_iff h, hexplicit, hderived]
  constructor
  · rintro ⟨row, hrow, hfile, -, hfield, hvalue⟩
    cases hkind : row.derived with
    | false => exact .inl ⟨row, hrow, hfile, by simp [hkind], hfield, hvalue⟩
    | true => exact .inr ⟨row, hrow, hfile, hkind, hfield, hvalue⟩
  · rintro (⟨row, hrow, hfile, -, hfield, hvalue⟩ | ⟨row, hrow, hfile, -, hfield, hvalue⟩)
    · exact ⟨row, hrow, hfile, rfl, hfield, hvalue⟩
    · exact ⟨row, hrow, hfile, rfl, hfield, hvalue⟩

/-- Where no file has a field twice, its explicit and derived fields are all its fields. -/
theorem fieldsOf_eq_all {tables : Tables}
    (h : (tables.fields.getD []).Pairwise FieldRow.Apart) (id : FileId) :
    tables.fieldsOf id = Extracted.all ⟨tables.explicitOf id, tables.derivedOf id⟩ := by
  have hexplicit : Ascending (tables.explicitOf id) := ascending_fieldsAmong _ id _
  have hderived : Ascending (tables.derivedOf id) := ascending_fieldsAmong _ id _
  rw [Extracted.all_eq_keyed hexplicit]
  refine (ascending_fieldsAmong _ id _).ext (ascending_keyed _) fun field => Option.ext fun value => ?_
  rw [get?_keyed_eq_some_iff (nodup_explicitOf_derivedOf h id), List.mem_append,
    ← hexplicit.get?_eq_some_iff, ← hderived.get?_eq_some_iff]
  exact get?_fieldsOf_iff h

/-! ### Inserting -/

/-- The rows of some fields of a file, all of one kind. -/
def rowsOf (id : FileId) (derived : Bool) (fields : FieldMap) : List FieldRow :=
  fields.map fun (field, value) => ⟨id, field, value, derived⟩

theorem mem_rowsOf {id : FileId} {derived : Bool} {fields : FieldMap} {row : FieldRow}
    (h : row ∈ rowsOf id derived fields) : row.file = id ∧ row.derived = derived := by
  obtain ⟨e, -, rfl⟩ := List.mem_map.mp h
  exact ⟨rfl, rfl⟩

theorem map_rowsOf (id : FileId) (derived : Bool) (fields : FieldMap) :
    ((rowsOf id derived fields).map fun row => (row.field, row.value)) = fields := by
  simp [rowsOf, Function.comp_def]

theorem filter_rowsOf (id : FileId) (derived : Bool) (fields : FieldMap) (keep : Bool → Bool) :
    ((rowsOf id derived fields).filter fun row => row.file == id && keep row.derived) =
      if keep derived then rowsOf id derived fields else [] := by
  split
  · rename_i hkeep
    refine List.filter_eq_self.mpr fun row hrow => ?_
    simp [mem_rowsOf hrow, hkeep]
  · rename_i hkeep
    refine List.filter_eq_nil_iff.mpr fun row hrow => ?_
    simp [mem_rowsOf hrow, hkeep]

/-- The rows of all that a file yields. -/
def fieldRows (id : FileId) (extracted : Extracted) : List FieldRow :=
  rowsOf id false extracted.explicit ++ rowsOf id true extracted.derived

theorem file_of_mem_fieldRows {id : FileId} {extracted : Extracted} {row : FieldRow}
    (h : row ∈ fieldRows id extracted) : row.file = id := by
  rcases List.mem_append.mp h with h | h <;> exact (mem_rowsOf h).1

/-- The new rows are apart from the old ones and from each other. -/
def Fits (rows new : List FieldRow) : Prop :=
  rows.Pairwise FieldRow.Apart → (rows ++ new).Pairwise FieldRow.Apart

theorem insertFields_ok {tables tables' : Tables} {rows : List FieldRow} {id : FileId}
    {derived : Bool} {fields : FieldMap}
    (h : tables.insertFields id derived fields = .ok tables') (hrows : tables.fields = some rows) :
    tables' = { tables with fields := some (rows ++ rowsOf id derived fields) } ∧
      Fits rows (rowsOf id derived fields) := by
  induction fields generalizing tables rows with
  | nil =>
    rw [insertFields, Except.ok.injEq] at h
    subst h
    simp [rowsOf, Fits, ← hrows]
  | cons e rest ih =>
    obtain ⟨field, value⟩ := e
    rw [insertFields, bind_eq_ok_iff] at h
    obtain ⟨rows', hneed, h⟩ := h
    rw [need_eq_ok_iff, hrows, Option.some.injEq] at hneed
    subst hneed
    split at h
    · cases h
    · rename_i hfree
      obtain ⟨heq, hfits⟩ := ih h rfl
      have happend : rows ++ rowsOf id derived ((field, value) :: rest) =
          rows ++ [⟨id, field, value, derived⟩] ++ rowsOf id derived rest := by
        simp [rowsOf]
      refine ⟨by rw [heq, happend], fun hapart => ?_⟩
      rw [happend]
      refine hfits (List.pairwise_append.mpr ⟨hapart, List.pairwise_singleton _ _, ?_⟩)
      intro row hrow new hnew hfile hfield
      rw [List.mem_singleton] at hnew
      subst hnew
      exact hfree (List.any_eq_true.mpr ⟨row, hrow, by simp_all⟩)

theorem insertExtracted_ok {tables tables' : Tables} {rows : List FieldRow} {id : FileId}
    {extracted : Extracted} (h : tables.insertExtracted id extracted = .ok tables')
    (hrows : tables.fields = some rows) :
    tables' = { tables with fields := some (rows ++ fieldRows id extracted) } ∧
      Fits rows (fieldRows id extracted) := by
  rw [insertExtracted, bind_eq_ok_iff] at h
  obtain ⟨middle, hexplicit, hderived⟩ := h
  obtain ⟨rfl, hfits⟩ := insertFields_ok hexplicit hrows
  obtain ⟨rfl, hfits'⟩ := insertFields_ok hderived rfl
  refine ⟨by rw [fieldRows, List.append_assoc], fun hapart => ?_⟩
  rw [fieldRows, ← List.append_assoc]
  exact hfits' (hfits hapart)

/-! ### What is stored then -/

theorem fieldsAmong_append_fieldRows {rows : List FieldRow} {id : FileId}
    (hfree : ∀ row ∈ rows, row.file ≠ id) {extracted : Extracted} (h : extracted.Ordered) :
    fieldsAmong (rows ++ fieldRows id extracted) id (fun row => !row.derived) =
        extracted.explicit ∧
      fieldsAmong (rows ++ fieldRows id extracted) id (fun row => row.derived) =
        extracted.derived := by
  have hold : ∀ keep : Bool → Bool,
      (rows.filter fun row => row.file == id && keep row.derived) = [] := by
    intro keep
    refine List.filter_eq_nil_iff.mpr fun row hrow => ?_
    simp [hfree row hrow]
  have hnew : ∀ keep : Bool → Bool,
      fieldsAmong (rows ++ fieldRows id extracted) id (fun row => keep row.derived) =
        keyed ((if keep false then extracted.explicit else []) ++
          if keep true then extracted.derived else []) := by
    intro keep
    rw [fieldsAmong, fieldRows, List.filter_append, List.filter_append, hold keep,
      filter_rowsOf id false _ keep, filter_rowsOf id true _ keep, List.nil_append, List.map_append]
    split <;> split <;> simp [map_rowsOf]
  constructor
  · rw [hnew Bool.not]
    simpa using h.explicit.keyed_eq
  · rw [hnew fun derived => derived]
    simpa using h.derived.keyed_eq

theorem fieldsAmong_append_fieldRows_of_ne {id other : FileId} (hne : other ≠ id)
    (rows : List FieldRow) (extracted : Extracted) (keep : FieldRow → Bool) :
    fieldsAmong (rows ++ fieldRows id extracted) other keep = fieldsAmong rows other keep := by
  have hnew : ((fieldRows id extracted).filter fun row => row.file == other && keep row) = [] := by
    simp [fieldRows, rowsOf, List.filter_map, Function.comp_def, hne.symm]
  rw [fieldsAmong, List.filter_append, hnew, List.append_nil, fieldsAmong]

theorem fieldsAmong_filter_of_ne {id other : FileId} (hne : other ≠ id) (rows : List FieldRow)
    (keep : FieldRow → Bool) :
    fieldsAmong (rows.filter fun row => row.file != id) other keep =
      fieldsAmong rows other keep := by
  rw [fieldsAmong, List.filter_filter, fieldsAmong]
  congr 3
  funext row
  by_cases h : row.file = other <;> simp [h, hne]

end Tables

end Catalog
