import Catalog.Proofs.Number.Special
import Catalog.Proofs.Query.NumberValue
import Catalog.Proofs.Store.Comparison

/-! The number that a text is, as the literal of a comparison and as a stored value. Literals are read with a
look at their characters, stored values without, and the numbers are the same. -/

namespace Catalog

open Catalog.Number Catalog.Order Catalog.Query Catalog.Text

/-- The number that a stored text takes part in an order with. -/
theorem Operand.units?_text (text : String) :
    (Operand.text text).units? = (finiteNumber? (trim text.toList)).map Double.toInt := by
  rw [Operand.units?, finiteNumber?_eq]

/-- A literal is a number if the text, which may have no other characters, writes a finite one. -/
theorem Query.read_eq_number_iff_plainNumber? {text : List Char} {x : Double} :
    Literal.read text = .number x ↔ plainNumber? (trim text) = some x := by
  rw [read_eq_number_iff, plainNumber?_eq, finiteNumber?_eq]

/-- A number is in order with itself by the operators that include equality. -/
theorem Operand.compares_self_iff {operand : Operand} {x : Double} (h : operand.units? = some x.toInt)
    {op : Operator} (hop : op.isOrdering) :
    operand.compares op (.number x) ↔ op = .ge ∨ op = .le := by
  have hself : orderOf x.toInt x.toInt = .eq := by
    rw [orderOf, if_neg (Int.lt_irrefl _), if_pos rfl]
  have hsubstring := Operator.isSubstring_of_isOrdering hop
  rw [compares_number hsubstring hop, h, Option.any_some, hself]
  revert hop
  cases op <;> decide

namespace Store

theorem mem_search_ownNumber {store : Store} {field : FieldKey} (hfield : Askable field) {file : FileRecord}
    (hfile : file ∈ store.tables.files) {value : String}
    (hvalue : get? field (store.tables.fieldsOf file.id) = some value) {x : Double}
    (hnumber : finiteNumber? (trim value.toList) = some x) {limit : Nat}
    (hlimit : store.tables.files.length ≤ limit) {op : Operator} (hop : op.isOrdering) :
    file ∈ (store.search (String.ofList (comparisonText (fieldName field) op value.toList)) limit 0).files ↔
      op = .ge ∨ op = .le := by
  have hsubstring := Operator.isSubstring_of_isOrdering hop
  have hread : Double.read? (trim value.toList) = some x := by rwa [← finiteNumber?_eq]
  have hunits : (Operand.text value).units? = some x.toInt := by
    rw [Operand.units?_text, hnumber, Option.map_some]
  have hoperand : (FieldRef.field field).operand? file (store.tables.fieldsOf file.id) =
      some (.text value) := by
    rw [FieldRef.operand?, hvalue, Option.map_some]
  rw [store.files_search_eq_matching (.field field)
    (compile_numberComparison hread hfield hsubstring _) hlimit, mem_matching_iff, hoperand]
  simp only [hfile, true_and, Option.mem_some_iff, exists_eq_left', Operand.compares_self_iff hunits hop]

/-- Every text is the same number, or none, as a literal and as a stored value. So a file with a number under
a field is found by the orders that include equality, given the text that is stored, and by no other. -/
theorem numbers_are_read_alike :
    (∀ (text : String) (x : Double),
      (Literal.read text.toList = .number x ↔ plainNumber? (trim text.toList) = some x) ∧
        plainNumber? (trim text.toList) = finiteNumber? (trim text.toList) ∧
        (Operand.text text).units? = (finiteNumber? (trim text.toList)).map Double.toInt) ∧
    ∀ (store : Store) (field : FieldKey) (file : FileRecord) (value : String) (x : Double) (limit : Nat),
      Askable field → file ∈ store.tables.files →
      get? field (store.tables.fieldsOf file.id) = some value →
      finiteNumber? (trim value.toList) = some x → store.tables.files.length ≤ limit →
      ∀ op : Operator, op.isOrdering →
        (file ∈ (store.search (String.ofList (comparisonText (fieldName field) op value.toList)) limit 0).files ↔
          op = .ge ∨ op = .le) :=
  ⟨fun text _ => ⟨read_eq_number_iff_plainNumber?, plainNumber?_eq _, Operand.units?_text text⟩,
    fun _ _ _ _ _ _ hfield hfile hvalue hnumber hlimit _ hop =>
      mem_search_ownNumber hfield hfile hvalue hnumber hlimit hop⟩

set_option maxRecDepth 2000 in
/-- A number with an exponent and with blanks around it, and an infinite one. -/
theorem numbers_are_read_alike_with_blanks :
    let files : Files.FileTree := ⟨[(["a"], .file (.sound [120]) 0)]⟩
    let document : Json.Value := .object [("exif", .object [("k", .string " 4.5e1\t")])]
    let field : FieldKey := ⟨"exif", "k"⟩
    let store := ((ofTables {} {}).upsert files "0" "a" document none none).1
    let file := store.tables.files.headD default
    (Askable field ∧ file ∈ store.tables.files ∧
        get? field (store.tables.fieldsOf file.id) = some " 4.5e1\t" ∧
        finiteNumber? (trim " 4.5e1\t".toList) = some (Double.ofInt 45) ∧
        store.tables.files.length ≤ 1) ∧
      (Literal.read " 4.5e1\t".toList = .number (Double.ofInt 45) ∧
        Literal.read "-Infinity".toList = .text "-Infinity") ∧
      file ∈ (store.search "exif.k >=  4.5e1\t" 1 0).files ∧
      file ∈ (store.search "exif.k <=  4.5e1\t" 1 0).files ∧
      file ∉ (store.search "exif.k >  4.5e1\t" 1 0).files := by
  intro files document field store file
  have haddressable : Addressable field :=
    ⟨by decide, by decide, by decide, List.all_eq_true.mp (by decide), by rintro (_ | _ | _) <;> decide⟩
  have hfield := haddressable.askable
  have hfile : file ∈ store.tables.files := by decide +kernel
  have hvalue : get? field (store.tables.fieldsOf file.id) = some " 4.5e1\t" := by decide +kernel
  have hnumber : finiteNumber? (trim " 4.5e1\t".toList) = some (Double.ofInt 45) := by decide +kernel
  have hlimit : store.tables.files.length ≤ 1 := by decide +kernel
  obtain ⟨hread, hfound⟩ := numbers_are_read_alike
  have hfound := hfound store field file _ _ 1 hfield hfile hvalue hnumber hlimit
  have hge : String.ofList (comparisonText (fieldName field) .ge " 4.5e1\t".toList) =
      "exif.k >=  4.5e1\t" := by decide +kernel
  have hle : String.ofList (comparisonText (fieldName field) .le " 4.5e1\t".toList) =
      "exif.k <=  4.5e1\t" := by decide +kernel
  have hgt : String.ofList (comparisonText (fieldName field) .gt " 4.5e1\t".toList) =
      "exif.k >  4.5e1\t" := by decide +kernel
  rw [← hge, ← hle, ← hgt]
  refine ⟨⟨hfield, hfile, hvalue, hnumber, hlimit⟩, ⟨?_, by decide +kernel⟩, ?_, ?_, ?_⟩
  · obtain ⟨hliteral, hsame, -⟩ := hread " 4.5e1\t" (Double.ofInt 45)
    exact hliteral.mpr (hsame.trans hnumber)
  · exact (hfound .ge rfl).mpr (.inl rfl)
  · exact (hfound .le rfl).mpr (.inr rfl)
  · intro hmem
    rcases (hfound .gt rfl).mp hmem with h | h <;> cases h

end Store

end Catalog
