import Catalog.Proofs.Query.Finite

/-! Whole sizes as they are typed: digits, blanks and a unit. The number of bytes that they write is what the
size of a file is compared with, to the byte. -/

namespace Catalog

open Catalog.Number Catalog.Text

namespace Query

/-- Digits, and a unit or none, in any case and after any blanks. -/
structure WrittenSize where
  digits : List Char
  blanks : List Char
  unit : List Char
  power : Nat
  nonempty : digits ≠ []
  isDigit : ∀ c ∈ digits, c.isDigit
  isBlank : ∀ c ∈ blanks, isBlank c
  isUnit : (upper unit, power) ∈ ([], 0) :: sizeUnits

namespace WrittenSize

def text (size : WrittenSize) : List Char := size.digits ++ size.blanks ++ size.unit

/-- The number before the unit. -/
def number (size : WrittenSize) : Nat := digitsValue size.digits

def bytes (size : WrittenSize) : Nat := size.number * 1024 ^ size.power

variable (size : WrittenSize)

theorem trim_digits_append : trim (size.digits ++ size.blanks) = size.digits := by
  have htrimmed : Trimmed size.digits := .of_forall fun c hc => isBlank_of_isDigit (size.isDigit c hc)
  simpa using trim_append (u := []) htrimmed size.nonempty (by simp) size.isBlank

/-- The end of a unit is no blank. -/
theorem isBlank_of_getLast?_unit {c : Char} (h : c ∈ size.unit.getLast?) : Text.isBlank c = false := by
  have hends : ∀ unit ∈ ([], 0) :: sizeUnits, unit.1.getLast?.all (· == 'B') := by decide
  have hupper : c.toUpper = 'B' := by
    have hlast := hends _ size.isUnit
    rw [upper, List.getLast?_map, Option.mem_def.mp h] at hlast
    simpa using hlast
  rw [← Bool.not_eq_true]
  intro hblank
  rw [toUpper_of_isBlank hblank] at hupper
  subst hupper
  exact absurd hblank (by decide)

theorem trim_text : trim size.text = if size.unit = [] then size.digits else size.text := by
  split
  · rename_i hunit
    rw [text, hunit, List.append_nil, trim_digits_append]
  · rename_i hunit
    refine Trimmed.trim_eq ⟨fun c hc => ?_, fun c hc => ?_⟩
    · obtain ⟨first, rest, hdigits⟩ := List.exists_cons_of_ne_nil size.nonempty
      have hfirst := size.isDigit first (hdigits ▸ List.mem_cons_self)
      rw [text, hdigits] at hc
      obtain rfl : first = c := Option.some.inj hc
      exact isBlank_of_isDigit hfirst
    · rw [text, List.getLast?_append, List.getLast?_eq_some_getLast hunit, Option.some_or,
        ← List.getLast?_eq_some_getLast hunit] at hc
      exact size.isBlank_of_getLast?_unit hc

theorem exists_tail : ∃ tail, size.text = trim size.text ++ tail ∧ ∀ c ∈ tail, Text.isBlank c := by
  rw [trim_text]
  split
  · rename_i hunit
    exact ⟨size.blanks, by rw [text, hunit, List.append_nil], size.isBlank⟩
  · exact ⟨[], (List.append_nil _).symm, by simp⟩

theorem upper_text : upper size.text = size.digits ++ size.blanks ++ upper size.unit := by
  have hblanks : upper size.blanks = size.blanks :=
    (List.map_congr_left fun c hc => toUpper_of_isBlank (size.isBlank c hc)).trans (List.map_id _)
  rw [text, upper, List.map_append, List.map_append, ← upper, ← upper, ← upper,
    upper_of_isDigit size.isDigit, hblanks]

theorem splitUnit_text : splitUnit (upper (trim size.text)) = (size.digits, size.power) := by
  rw [trim_text]
  split
  · rename_i hunit
    have hpower : size.power = 0 := by
      have hmem := size.isUnit
      rw [hunit] at hmem
      have hpowers : ∀ unit ∈ ([], 0) :: sizeUnits, unit.1 = [] → unit.2 = 0 := by decide
      exact hpowers _ hmem rfl
    rw [upper_of_isDigit size.isDigit, hpower]
    exact splitUnit_of_isNumeral fun c hc => Decimal.isNumeral_of_isDigit (size.isDigit c hc)
  · rename_i hunit
    have hmem : (upper size.unit, size.power) ∈ sizeUnits := by
      refine (List.mem_cons.mp size.isUnit).resolve_left fun heq => hunit ?_
      exact List.map_eq_nil_iff.mp (Prod.ext_iff.mp heq).1
    rw [upper_text, splitUnit_append _ hmem, trim_digits_append]
    intro c hc hletter
    rcases List.mem_append.mp (List.mem_of_mem_getLast? hc) with hdigit | hblank
    · have hdigit := size.isDigit c hdigit
      simp only [List.mem_cons, List.not_mem_nil, or_false] at hletter
      rcases hletter with rfl | rfl | rfl <;> cases hdigit
    · have hblank := size.isBlank c hblank
      simp only [List.mem_cons, List.not_mem_nil, or_false] at hletter
      rcases hletter with rfl | rfl | rfl <;> exact absurd hblank (by decide)

theorem sizeParts?_text (h : size.number ≤ 2 ^ 53) :
    sizeParts? size.text = some ⟨⟨false, size.number * Double.one⟩, size.power⟩ := by
  rw [sizeParts?, splitUnit_text]
  dsimp only
  rw [Double.read?_of_isDigit size.nonempty size.isDigit h]
  rfl

/-- A whole number of units up to 2^53 is read as exactly its bytes. -/
theorem size?_text (h : size.number ≤ 2 ^ 53) :
    size? size.text = some ⟨false, size.bytes * Double.one⟩ := by
  have hpower : size.power ≤ 3 := (isSize_of_sizeParts? (size.sizeParts?_text h)).power
  have hunit : 1024 ^ size.power ≤ 2 ^ 30 := by
    calc 1024 ^ size.power ≤ 1024 ^ 3 := Nat.pow_le_pow_right (by decide) hpower
      _ = 2 ^ 30 := by norm_num
  have hbound : size.bytes * Double.one ≤ Double.limit := by
    have hlimit : 2 ^ 53 * 2 ^ 30 * Double.one ≤ Double.limit := by decide +kernel
    exact (Nat.mul_le_mul_right _ (Nat.mul_le_mul h hunit)).trans hlimit
  have hunits : SizeParts.units ⟨⟨false, size.number * Double.one⟩, size.power⟩ = size.bytes * Double.one :=
    Nat.mul_right_comm _ _ _
  rw [size?_eq_map, size.sizeParts?_text h, Option.map_some, SizeParts.bytes, hunits, Nat.min_eq_left hbound]

/-! ### Queries -/

theorem cases_of_mem_text {c : Char} (h : c ∈ size.text) :
    c.isDigit ∨ Text.isBlank c ∨ c.toUpper ∈ ['G', 'M', 'K', 'B'] := by
  have hletters : ∀ unit ∈ ([], 0) :: sizeUnits, unit.1 ⊆ ['G', 'M', 'K', 'B'] := by decide
  rw [text, List.mem_append, List.mem_append] at h
  rcases h with (hdigit | hblank) | hunit
  · exact .inl (size.isDigit c hdigit)
  · exact .inr (.inl (size.isBlank c hblank))
  · exact .inr (.inr (hletters _ size.isUnit (List.mem_map_of_mem hunit)))

theorem not_mem_text : 'A' ∉ size.text := fun h => by
  rcases size.cases_of_mem_text h with hdigit | hblank | hletter
  · cases hdigit
  · exact absurd hblank (by decide)
  · exact absurd hletter (by decide)

theorem not_isSign_of_mem_text {c : Char} (h : c ∈ size.text) : ¬isSign c := by
  intro hsign
  have hother : c.isDigit = false ∧ Text.isBlank c = false ∧ c.toUpper ∉ ['G', 'M', 'K', 'B'] := by
    rcases eq_of_isSign hsign with rfl | rfl | rfl <;> decide
  rcases size.cases_of_mem_text h with hdigit | hblank | hletter
  · rw [hother.1] at hdigit
    cases hdigit
  · rw [hother.2.1] at hblank
    cases hblank
  · exact hother.2.2 hletter

theorem trim_text_ne_nil : trim size.text ≠ [] := by
  obtain ⟨first, hfirst⟩ := List.exists_mem_of_ne_nil _ size.nonempty
  have hmem : first ∈ size.text := List.mem_append_left _ (List.mem_append_left _ hfirst)
  exact List.ne_nil_of_mem (mem_trim hmem (isBlank_of_isDigit (size.isDigit first hfirst)))

theorem writable : Writable (trim size.text) := by
  obtain ⟨-, -, -, -, -, htrimmed⟩ := exists_trim size.text
  have huncut : Uncut (marked (trim size.text)) := by
    refine uncut_of_not_mem ?_
    rw [map_fst_marked]
    exact fun hmem => size.not_mem_text (mem_of_mem_trim hmem)
  refine .of_noSign htrimmed size.trim_text_ne_nil
    (fun c hc => size.not_isSign_of_mem_text (mem_of_mem_trim hc)) ?_
  rw [clauses_eq_singleton htrimmed size.trim_text_ne_nil huncut]
  rfl

/-- The size of a file compared with a written size. -/
def query (lead : Option Operator) : String := String.ofList (shortcutText "size:".toList lead size.text)

variable {lead : Option Operator} (hlead : ∀ op ∈ lead, op ∈ leadingOperators)
include hlead

theorem clauses_text :
    clauses (shortcutText "size:".toList lead size.text) =
      [shortcutText "size:".toList lead (trim size.text)] := by
  have hword : sameLetters "size:".toList "size:".toList := by decide
  have htrim : trim (shortcutText "size:".toList lead size.text) =
      shortcutText "size:".toList lead (trim size.text) := by
    obtain ⟨tail, htail, hblank⟩ := size.exists_tail
    have htrimmed := size.writable.trimmed_shortcutText mem_shortcuts_size hword lead
    have happend := trim_append (u := []) htrimmed (by simp [shortcutText]) (by simp) hblank
    rw [List.nil_append, shortcutText, List.append_assoc, ← htail] at happend
    exact happend
  have hmem : 'A' ∉ shortcutText "size:".toList lead size.text := by
    rw [shortcutText, List.mem_append, not_or]
    refine ⟨?_, size.not_mem_text⟩
    cases lead with
    | none => decide
    | some op =>
      have hop := hlead op rfl
      revert hop
      cases op <;> decide
  rw [clauses_of_uncut (uncut_of_not_mem (by rwa [map_fst_marked])), htrim]
  rw [htrim]
  simp [shortcutText]

/-- It asks for exactly the bytes that are written. -/
theorem compile_query (h : size.number ≤ 2 ^ 53) (normalizedCategory : String) :
    (compile normalizedCategory (size.query lead)).predicates =
      [⟨.file .size, lead.getD .eq, .number ⟨false, size.bytes * Double.one⟩⟩] := by
  have hsize : size? (trim size.text) = some ⟨false, size.bytes * Double.one⟩ := by
    rw [size?_eq, trim_trim, ← size?_eq, size.size?_text h]
  rw [query, predicates_ofList, size.clauses_text hlead, List.filterMap_cons,
    predicate?_sizeShortcut size.writable hlead, hsize]
  rfl

end WrittenSize

end Query

end Catalog
