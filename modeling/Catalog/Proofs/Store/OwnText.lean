import Catalog.Proofs.Field.Leaves
import Catalog.Proofs.Query.Canonical
import Catalog.Proofs.Query.NumberValue
import Catalog.Proofs.Store.Comparison
import Catalog.Proofs.Store.Contents

/-! Numbers of documents, looked for by the text under which they are stored. -/

namespace Catalog

open Catalog.Number Catalog.Order Catalog.Query Catalog.Text

/-! ### Queries -/

namespace Query

/-- The query that asks for a field by the text of a number. -/
def numberQuery (field : FieldKey) (n : Json.Number) : String :=
  String.ofList (comparisonText (fieldName field) .eq n.text)

/-- It asks for the number that the text reads as. -/
theorem compile_numberQuery {field : FieldKey} (hfield : Addressable field) {n : Json.Number}
    (hn : n.InRange) (normalizedCategory : String) :
    (compile normalizedCategory (numberQuery field n)).predicates =
      [⟨.field field, .eq, .number n.toDouble⟩] := by
  have hread := Json.Number.read?_text hn
  have htrimmed : Trimmed n.text :=
    .of_forall fun c hc => isBlank_of_isNumeral (Double.isNumeral_of_read? hread c hc)
  rw [← htrimmed.trim_eq] at hread
  exact compile_numberComparison hread hfield.askable rfl normalizedCategory

end Query

/-- A field text is equal to a number if it is the canonical text of the number. -/
theorem Operand.compares_eq_number {text : String} {value : Double} :
    (Operand.text text).compares .eq (.number value) ↔
      text = String.ofList (Literal.numberText value) := accepts_eq_iff

/-! ### Stored numbers -/

/-- A document has the number under a field: as the leaf of the field, no longer than values may be, or as
the text of a normalized field. -/
def FlattenRules.StoresNumber (rules : FlattenRules) (document : Json.Value) (field : FieldKey)
    (n : Json.Number) : Prop :=
  rules.leafOf? document field = some (.number n) ∧ n.text.length ≤ rules.maxValueLength ∨
    get? field ((flatten rules document).normalized rules.normalizedCategory) =
      some (String.ofList n.text)

namespace Store

variable {store store' : Store} {files : Files.FileTree} {now : Timestamp} {path : Files.Path}
  {document : Json.Value} {hashes : Option (List (String × String))}
  {favorite : Option FavoriteInput} {id : FileId} {field : FieldKey} {n : Json.Number}

/-- After the upsert of a document with a number, the file has the text of the number under the field. -/
theorem get?_fields_of_storesNumber (hreachable : store.Reachable)
    (h : store.upsert files now path document hashes favorite = (store', .ok id))
    (hn : store.settings.flatten.StoresNumber document field n) :
    get? field (store'.tables.fieldsOf id) = some (String.ofList n.text) := by
  obtain ⟨seen, stored, time, hashRows, favoriteRows, hstored, rfl⟩ := upsert_stored h
  obtain ⟨hconsistent, -⟩ := hstored.consistent hreachable.consistent
  obtain ⟨hexplicit, hderived⟩ := hstored.fields_eq hreachable.consistent
    (Extracted.ordered_ofDocument store.settings.flatten document)
  refine (Tables.get?_fieldsOf_iff hconsistent.fieldsApart).mpr ?_
  rw [hexplicit, hderived]
  rcases hn with ⟨hleaf, hlength⟩ | hnormalized
  · refine .inl ?_
    change get? field (flatten store.settings.flatten document) = _
    rw [FlattenRules.get?_flatten, hleaf, Option.bind_some, FlattenRules.text?_number _ hlength]
  · exact .inr hnormalized

theorem exists_file_of_upsert
    (h : store.upsert files now path document hashes favorite = (store', .ok id)) :
    ∃ file ∈ store'.tables.files, file.id = id := by
  obtain ⟨seen, stored, time, hashRows, favoriteRows, hstored, rfl⟩ := upsert_stored h
  obtain ⟨file, hfile, -, hid⟩ := hstored.exists_file
  exact ⟨file, hfile, hid⟩

/-- A number that an upsert stores is found by its own text exactly if this is its canonical text. -/
theorem found_by_own_text_iff (hreachable : store.Reachable)
    (h : store.upsert files now path document hashes favorite = (store', .ok id))
    (hfield : Addressable field) (hn : n.InRange)
    (hstored : store.settings.flatten.StoresNumber document field n) {limit : Nat}
    (hlimit : store'.tables.files.length ≤ limit) :
    get? field (store'.fields id) = some (String.ofList n.text) ∧
      (id ∈ (store'.search (numberQuery field n) limit 0).files.map (·.id) ↔ IsCanonical n) ∧
      (∀ value : Int, n = .integer value → value.natAbs ≤ 2 ^ 53 → IsCanonical n) := by
  have htext := get?_fields_of_storesNumber hreachable h hstored
  refine ⟨htext, ?_, ?_⟩
  · rw [store'.files_search_eq_matching (.field field) (compile_numberQuery hfield hn _) hlimit,
      ← numberText_eq_text_iff hn]
    constructor
    · intro hmem
      obtain ⟨file, hfile, rfl⟩ := List.mem_map.mp hmem
      obtain ⟨-, operand, hoperand, hcompares⟩ := (store'.mem_matching_iff _).mp hfile
      rw [FieldRef.operand?, htext] at hoperand
      obtain rfl := Option.some.inj hoperand
      exact (String.ofList_inj.mp (Operand.compares_eq_number.mp hcompares)).symm
    · intro hsame
      obtain ⟨file, hfile, rfl⟩ := exists_file_of_upsert h
      have hoperand : FieldRef.operand? (.field field) file (store'.tables.fieldsOf file.id) =
          some (.text (String.ofList n.text)) := by
        rw [FieldRef.operand?, htext]
        rfl
      have hcompares : (Operand.text (String.ofList n.text)).compares .eq (.number n.toDouble) := by
        rw [Operand.compares_eq_number, hsame]
      exact List.mem_map.mpr
        ⟨file, (store'.mem_matching_iff _).mpr ⟨hfile, _, hoperand, hcompares⟩, rfl⟩
  · rintro value rfl hvalue
    exact isCanonical_of_le hvalue

set_option maxRecDepth 2000 in
/-- A number with a fraction is found by its own text. -/
theorem found_by_own_text_with_fraction :
    let files : Files.FileTree := ⟨[(["a"], .file (.sound [1]) 0)]⟩
    let n : Json.Number := .double ⟨false, 5 * 2 ^ 1073⟩
    let document : Json.Value := .object [("exif", .object [("f_number", .number n)])]
    let field : FieldKey := ⟨"exif", "f_number"⟩
    let store := ofTables {} {}
    let done := store.upsert files "0" "a" document none none
    (store.Reachable ∧ done = (done.1, .ok 1) ∧ Addressable field ∧ n.InRange ∧
        store.settings.flatten.StoresNumber document field n ∧ done.1.tables.files.length ≤ 1) ∧
      IsCanonical n ∧ numberQuery field n = "exif.f_number = 2.5" ∧
      1 ∈ (done.1.search (numberQuery field n) 1 0).files.map (·.id) := by
  intro files n document field store done
  have hreachable : store.Reachable := .opened {}
  have hok : done.2 = .ok 1 := by decide +kernel
  have hdone : done = (done.1, .ok 1) := by rw [← hok]
  have hfield : Addressable field :=
    ⟨by decide, by decide, by decide, List.all_eq_true.mp (by decide), by rintro (_ | _ | _) <;> decide⟩
  have hrange : n.InRange := ⟨⟨by decide +kernel, by decide +kernel⟩, by decide +kernel⟩
  have hlength : n.text.length ≤ store.settings.flatten.maxValueLength := by decide +kernel
  have hstored : store.settings.flatten.StoresNumber document field n :=
    .inl ⟨FlattenRules.leafOf?_single _ (by decide) (by decide) (by decide) rfl, hlength⟩
  have hlimit : done.1.tables.files.length ≤ 1 := by decide +kernel
  have hcanonical : IsCanonical n := ⟨by decide +kernel, by decide +kernel, by decide +kernel⟩
  obtain ⟨-, hfound, -⟩ := found_by_own_text_iff hreachable hdone hfield hrange hstored hlimit
  exact ⟨⟨hreachable, hdone, hfield, hrange, hstored, hlimit⟩, hcanonical, by decide +kernel,
    hfound.mpr hcanonical⟩

set_option maxRecDepth 2000 in
/-- A whole binary64 number is stored with a point, and its own text finds nothing. -/
theorem not_found_by_own_text_of_whole :
    let files : Files.FileTree := ⟨[(["a"], .file (.sound [120]) 0)]⟩
    let n : Json.Number := .double (Double.ofInt 100)
    let document : Json.Value := .object [("exif", .object [("x", .number n)])]
    let field : FieldKey := ⟨"exif", "x"⟩
    let store := ofTables {} {}
    let done := store.upsert files "0" "a" document none none
    (store.Reachable ∧ done = (done.1, .ok 1) ∧ Addressable field ∧ n.InRange ∧
        store.settings.flatten.StoresNumber document field n) ∧
      done.1.fields 1 = [(field, "100.0")] ∧ numberQuery field n = "exif.x = 100.0" ∧
      ¬1 ∈ (done.1.search (numberQuery field n) done.1.tables.files.length 0).files.map (·.id) := by
  intro files n document field store done
  have hok : done.2 = .ok 1 := by decide +kernel
  have hfield : Addressable field :=
    ⟨by decide, by decide, by decide, List.all_eq_true.mp (by decide), by rintro (_ | _ | _) <;> decide⟩
  have hrange : n.InRange := ⟨⟨by decide +kernel, by decide +kernel⟩, by decide +kernel⟩
  have hlength : n.text.length ≤ store.settings.flatten.maxValueLength := by decide +kernel
  have hstored : store.settings.flatten.StoresNumber document field n :=
    .inl ⟨FlattenRules.leafOf?_single _ (by decide) (by decide) (by decide) rfl, hlength⟩
  exact ⟨⟨.opened {}, by rw [← hok], hfield, hrange, hstored⟩, by decide +kernel, by decide +kernel,
    by decide +kernel⟩

end Store

end Catalog
