import Catalog.Proofs.Number.Decimal
import Catalog.Proofs.Query.Spelling

/-! Numbers as the values of comparisons. Nothing that a number is written with is taken for anything else in
a clause, so it can stand there without quotes, with whatever blanks are around it. -/

namespace Catalog.Query

open Catalog.Number Catalog.Text

theorem isBlank_of_isNumeral {c : Char} (h : Decimal.isNumeral c) : isBlank c = false := by
  simp only [Decimal.isNumeral, Bool.or_eq_true, beq_iff_eq] at h
  rcases h with ((((hdigit | rfl) | rfl) | rfl) | rfl) | rfl
  · exact isBlank_of_isDigit hdigit
  all_goals decide

theorem not_isSign_of_isNumeral {c : Char} (h : Decimal.isNumeral c) : ¬isSign c := by
  intro hsign
  rcases eq_of_isSign hsign with rfl | rfl | rfl <;> exact absurd h (by decide)

section

variable {value : List Char} {x : Double} (h : Double.read? (trim value) = some x)
include h

theorem isNumeral_or_isBlank {c : Char} (hc : c ∈ value) : Decimal.isNumeral c ∨ isBlank c := by
  cases hblank : isBlank c with
  | true => exact .inr rfl
  | false => exact .inl (Double.isNumeral_of_read? h c (mem_trim hc hblank))

theorem not_isSign_of_mem {c : Char} (hc : c ∈ value) : ¬isSign c := by
  rcases isNumeral_or_isBlank h hc with hnumeral | hblank
  · exact not_isSign_of_isNumeral hnumeral
  · intro hsign
    rcases eq_of_isSign hsign with rfl | rfl | rfl <;> exact absurd hblank (by decide)

theorem not_mem_of_read? : 'A' ∉ value := by
  intro hmem
  rcases isNumeral_or_isBlank h hmem with hnumeral | hblank
  · exact absurd hnumeral (by decide)
  · exact absurd hblank (by decide)

/-- A field compared with a number is compared with the number that is read, blanks around it or not. -/
theorem compile_numberComparison {field : FieldKey} (hfield : Askable field) {op : Operator}
    (hop : op.isSubstring = false) (normalizedCategory : String) :
    (compile normalizedCategory
      (String.ofList (comparisonText (fieldName field) op value))).predicates =
      [⟨.field field, op, .number x⟩] := by
  have hcontains : op ≠ .contains := by
    rintro rfl
    cases hop
  have hne : trim value ≠ [] := by
    intro hnil
    rw [hnil] at h
    cases h
  obtain ⟨before, after, hvalue, hbefore, hafter, htrimmed⟩ := exists_trim value
  have huncut : Uncut (marked value) :=
    uncut_of_not_mem (by rw [map_fst_marked]; exact not_mem_of_read? h)
  have hand : ¬['A', 'N', 'D', ' '] <+: value := fun hstart =>
    not_mem_of_read? h (hstart.subset List.mem_cons_self)
  have hsigns : ∀ c ∈ before ++ trim value, ¬isSign c := fun c hc =>
    not_isSign_of_mem h (hvalue ▸ List.mem_append_left _ hc)
  have hliteral : literalFor op (trim value) = .number x := by
    rw [literalFor, hop, if_neg (by simp), read_eq_number_iff, trim_trim, h]
  generalize trim value = number at hvalue htrimmed hne hsigns hliteral
  subst hvalue
  have hpart : trim (before ++ number) = number := by
    simpa using trim_append (v := []) htrimmed hne hbefore (by simp)
  rw [compile, String.toList_ofList,
    clauses_comparisonText_append hfield.nameable htrimmed hne hafter huncut hand, List.filterMap_cons,
    comparisonText, predicate?_spelledText hfield.nameable op.upper_symbol (by rwa [hpart])
      (precedesIn_of_signsQuoted (signsQuoted_of_noSign hsigns) hcontains),
    hpart, hfield.resolve?_fieldName, Option.bind_some, literalAgainst?_field, hliteral]
  rfl

end

end Catalog.Query
