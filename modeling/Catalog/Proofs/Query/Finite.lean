import Catalog.Proofs.Query.Size

/-! The numbers of a query are finite, with one exception: a size is finite as it is read, but its product
with the unit may be too large. Which sizes are, and which clauses read one, is settled here. -/

namespace Catalog.Query

open Catalog.Number Catalog.Text

/-! ### Sizes -/

/-- The number of bytes that the text writes as a size is past the finite numbers. -/
def SizeOverflows (s : List Char) : Prop := ∃ parts ∈ sizeParts? s, Double.limit ≤ parts.units

/-- A size is never below zero, and it is infinite exactly if it is too large. -/
theorem size?_spec {s : List Char} {bytes : Double} (h : size? s = some bytes) :
    0 ≤ bytes.toInt ∧ (bytes.isFinite ↔ ¬SizeOverflows s) := by
  rw [size?_eq_map] at h
  obtain ⟨parts, hparts, rfl⟩ := Option.map_eq_some_iff.mp h
  have hsize := isSize_of_sizeParts? hparts
  constructor
  · rw [SizeParts.bytes, Double.toInt]
    split
    · rename_i hnegative
      rw [SizeParts.units, hsize.nonnegative hnegative]
      simp
    · exact Int.natCast_nonneg _
  · rw [SizeOverflows, hparts, parts.isFinite_bytes]
    simp

/-! ### Clauses -/

theorem finite_of_read {s : List Char} {x : Double} (h : Literal.read s = .number x) : x.isFinite := by
  obtain ⟨-, -, -, hfinite⟩ := Double.exists_decimal_of_read? (read_eq_number_iff.mp h)
  exact hfinite

theorem finite_of_literalFor {op : Operator} {value : List Char} {x : Double}
    (h : literalFor op value = .number x) : x.isFinite := by
  unfold literalFor at h
  split at h
  · cases h
  · exact finite_of_read h

theorem comparison?_eq_some_iff {normalizedCategory : String} {clause : List Char} {predicate : Predicate} :
    comparison? normalizedCategory clause = some predicate ↔
      ∃ split, Split.ofClause? clause = some split ∧
        (trim split.left ≠ [] ∧ trim split.right ≠ [] ∧ (trim split.left).any isBlank = false) ∧
        resolve? normalizedCategory (trim split.left) = some predicate.field ∧
        literalAgainst? predicate.field split.op (trim split.right) = some predicate.literal ∧
        split.op = predicate.op := by
  unfold comparison?
  rw [Option.bind_eq_bind, Option.bind_eq_some_iff]
  refine exists_congr fun split => and_congr_right fun _ => ?_
  dsimp only
  split
  · rename_i hrefused
    simp only [Bool.or_eq_true, List.isEmpty_iff] at hrefused
    constructor
    · intro h
      cases h
    · rintro ⟨⟨hleft, hright, hblank⟩, -⟩
      rcases hrefused with (hnil | hnil) | hsome
      · exact absurd hnil hleft
      · exact absurd hnil hright
      · rw [hsome] at hblank
        cases hblank
  · rename_i haccepted
    have hkept : trim split.left ≠ [] ∧ trim split.right ≠ [] ∧ (trim split.left).any isBlank = false := by
      simpa [not_or, and_assoc] using haccepted
    cases predicate with
    | mk field op literal =>
      simp [hkept, Option.bind_eq_some_iff]

theorem literalAgainst?_cases {field : FieldRef} {op : Operator} {value : List Char} {literal : Literal}
    (h : literalAgainst? field op value = some literal) :
    literalFor op value = literal ∨ field = .file .size ∧ ∃ text bytes, literalFor op value = .text text ∧
      size? text.toList = some bytes ∧ literal = .number bytes := by
  unfold literalAgainst? at h
  generalize literalFor op value = found at h ⊢
  split at h
  · rename_i text
    obtain ⟨bytes, hsize, rfl⟩ := Option.map_eq_some_iff.mp h
    exact .inr ⟨rfl, text, bytes, rfl, hsize, rfl⟩
  · exact .inl (Option.some.inj h)

theorem mem_shortcuts_of_shortcut? {clause value : List Char} {shortcut : Shortcut}
    (h : shortcut? clause = some (shortcut, value)) : shortcut ∈ shortcuts := by
  obtain ⟨other, hother, hsome⟩ := List.exists_of_findSome?_eq_some h
  dsimp only at hsome
  split at hsome
  · cases hsome
    exact hother
  · cases hsome

/-- The only shortcut that is read as a size is about the size of a file. -/
theorem field_of_sized {shortcut : Shortcut} (hshortcut : shortcut ∈ shortcuts) (h : shortcut.form = .sized)
    (normalizedCategory : String) : shortcut.field normalizedCategory = .file .size := by
  have htarget : ∀ shortcut ∈ shortcuts, shortcut.form = .sized → shortcut.target = .inl .size := by
    decide
  rw [Shortcut.field, htarget shortcut hshortcut h]

theorem Shortcut.predicate?_eq_some_iff {shortcut : Shortcut} {normalizedCategory : String}
    {value : List Char} {predicate : Predicate} :
    shortcut.predicate? normalizedCategory value = some predicate ↔
      shortcut.form.comparison? value = some (predicate.op, predicate.literal) ∧
        predicate.literal.isEmpty = false ∧ shortcut.field normalizedCategory = predicate.field := by
  rw [Shortcut.predicate?, Option.bind_eq_bind, Option.bind_eq_some_iff]
  cases predicate with
  | mk field op literal =>
    constructor
    · rintro ⟨⟨op, literal⟩, hcomparison, h⟩
      dsimp only at h
      split at h
      · cases h
      · rename_i hempty
        cases h
        exact ⟨hcomparison, by simpa using hempty, rfl⟩
    · rintro ⟨hcomparison, hempty, rfl⟩
      exact ⟨_, hcomparison, by dsimp only at hempty ⊢; rw [hempty]; rfl⟩

theorem ShortcutForm.comparison?_cases {form : ShortcutForm} {value : List Char} {op : Operator} {x : Double}
    (h : form.comparison? value = some (op, .number x)) :
    x.isFinite ∨ form = .sized ∧ size? (takeOperator value).2 = some x := by
  unfold ShortcutForm.comparison? at h
  split at h
  · rw [Option.some.injEq, Prod.mk.injEq] at h
    exact .inl (finite_of_literalFor h.2)
  · refine .inr ⟨rfl, ?_⟩
    obtain ⟨bytes, hsize, hpair⟩ := Option.map_eq_some_iff.mp h
    cases hpair
    exact hsize
  · rw [Option.some.injEq, Prod.mk.injEq] at h
    exact .inl (finite_of_read h.2)
  · rw [Option.some.injEq, Prod.mk.injEq] at h
    cases h.2

/-- A clause has a text read as a size: the value of the shortcut after its operator, or what a comparison of
the size by name is left with as a text. -/
inductive ReadsSize (normalizedCategory : String) (clause : List Char) : List Char → Prop where
  | shortcut {shortcut : Shortcut} {value : List Char} (hshortcut : shortcut? clause = some (shortcut, value))
      (hform : shortcut.form = .sized) :
      ReadsSize normalizedCategory clause (takeOperator value).2
  | comparison {split : Split} {text : String} (hshortcut : shortcut? clause = none)
      (hsplit : Split.ofClause? clause = some split)
      (hname : trim split.left ≠ [] ∧ (trim split.left).any isBlank = false)
      (hresolved : resolve? normalizedCategory (trim split.left) = some (.file .size))
      (hliteral : literalFor split.op (trim split.right) = .text text) :
      ReadsSize normalizedCategory clause text.toList

variable {normalizedCategory : String} {clause text : List Char} {predicate : Predicate} {x : Double}

/-- A number of a clause is finite, unless it is a size. -/
theorem finite_or_size (h : predicate? normalizedCategory clause = some predicate)
    (hliteral : predicate.literal = .number x) :
    x.isFinite ∨ predicate.field = .file .size ∧
      ∃ text, ReadsSize normalizedCategory clause text ∧ size? text = some x := by
  cases hshortcut : shortcut? clause with
  | none =>
    rw [predicate?, hshortcut] at h
    obtain ⟨split, hsplit, ⟨hleft, -, hblank⟩, hresolved, hagainst, -⟩ := comparison?_eq_some_iff.mp h
    rw [hliteral] at hagainst
    rcases literalAgainst?_cases hagainst with hread | ⟨hfield, text, bytes, htext, hsize, hnumber⟩
    · exact .inl (finite_of_literalFor hread)
    · cases hnumber
      rw [hfield] at hresolved
      exact .inr ⟨hfield, _, .comparison hshortcut hsplit ⟨hleft, hblank⟩ hresolved htext, hsize⟩
  | some found =>
    obtain ⟨shortcut, value⟩ := found
    rw [predicate?, hshortcut] at h
    obtain ⟨hcomparison, -, hfield⟩ := Shortcut.predicate?_eq_some_iff.mp h
    rw [hliteral] at hcomparison
    rcases ShortcutForm.comparison?_cases hcomparison with hfinite | ⟨hform, hsize⟩
    · exact .inl hfinite
    · rw [field_of_sized (mem_shortcuts_of_shortcut? hshortcut) hform] at hfield
      exact .inr ⟨hfield.symm, _, .shortcut hshortcut hform, hsize⟩

/-- A clause with a size compares with it. -/
theorem ReadsSize.exists_predicate (h : ReadsSize normalizedCategory clause text) (hsize : size? text = some x) :
    ∃ op, predicate? normalizedCategory clause = some ⟨.file .size, op, .number x⟩ := by
  cases h with
  | @shortcut shortcut value hshortcut hform =>
    have hfield := field_of_sized (mem_shortcuts_of_shortcut? hshortcut) hform normalizedCategory
    refine ⟨(takeOperator value).1.getD .eq, ?_⟩
    rw [predicate?, hshortcut]
    dsimp only
    rw [Shortcut.predicate?_eq_some_iff, hform, ShortcutForm.comparison?]
    dsimp only
    rw [hsize]
    exact ⟨rfl, rfl, hfield⟩
  | @comparison split text hshortcut hsplit hname hresolved hliteral =>
    have hvalue : trim split.right ≠ [] := by
      intro hnil
      have hempty : literalFor split.op [] = .text "" := by cases split.op <;> decide +kernel
      rw [hnil, hempty] at hliteral
      obtain rfl := Literal.text.inj hliteral
      have hnone : size? "".toList = none := by decide +kernel
      rw [hnone] at hsize
      cases hsize
    refine ⟨split.op, ?_⟩
    rw [predicate?, hshortcut]
    dsimp only
    refine comparison?_eq_some_iff.mpr ⟨split, hsplit, ⟨hname.1, hvalue, hname.2⟩, hresolved, ?_, rfl⟩
    dsimp only
    unfold literalAgainst?
    rw [hliteral]
    dsimp only
    rw [hsize]
    rfl

theorem SizeOverflows.size?_eq (h : SizeOverflows text) : size? text = some ⟨false, Double.limit⟩ := by
  obtain ⟨parts, hparts, hlarge⟩ := h
  have hnegative : parts.number.negative = false := by
    by_contra hnegative
    have hzero := (isSize_of_sizeParts? hparts).nonnegative (by simpa using hnegative)
    have hpos : 0 < Double.limit := by decide +kernel
    rw [SizeParts.units, hzero, Nat.zero_mul] at hlarge
    exact absurd hpos (Nat.not_lt.mpr hlarge)
  rw [size?_eq_map, hparts, Option.map_some, SizeParts.bytes, hnegative, Nat.min_eq_right hlarge]

theorem mem_predicates_iff {query : String} :
    predicate ∈ (compile normalizedCategory query).predicates ↔
      ∃ clause ∈ clauses query.toList, predicate? normalizedCategory clause = some predicate :=
  List.mem_filterMap

/-- All numbers of a query are finite, unless a size in one of its clauses is too large. Then the number is
infinite, and the size of the file is compared with it. -/
theorem finite_iff_no_size_overflows (normalizedCategory query : String) :
    ((∀ p ∈ (compile normalizedCategory query).predicates, ∀ x, p.literal = .number x → x.isFinite) ↔
      ∀ clause ∈ clauses query.toList, ∀ text, ReadsSize normalizedCategory clause text →
        ¬SizeOverflows text) ∧
    (∀ p ∈ (compile normalizedCategory query).predicates, ∀ x, p.literal = .number x → ¬x.isFinite →
      p.field = .file .size ∧ x = ⟨false, Double.limit⟩) ∧
    ∀ text bytes, size? text = some bytes → 0 ≤ bytes.toInt ∧ (bytes.isFinite ↔ ¬SizeOverflows text) := by
  refine ⟨⟨fun hfinite clause hclause text hreads hlarge => ?_, fun hsmall p hp x hx => ?_⟩,
    fun p hp x hx hinfinite => ?_, fun text bytes => size?_spec⟩
  · obtain ⟨op, hpredicate⟩ := hreads.exists_predicate hlarge.size?_eq
    exact Double.not_isFinite_limit false
      (hfinite _ (mem_predicates_iff.mpr ⟨clause, hclause, hpredicate⟩) _ rfl)
  · obtain ⟨clause, hclause, hpredicate⟩ := mem_predicates_iff.mp hp
    rcases finite_or_size hpredicate hx with hfinite | ⟨-, text, hreads, hsize⟩
    · exact hfinite
    · exact (size?_spec hsize).2.mpr (hsmall clause hclause text hreads)
  · obtain ⟨clause, hclause, hpredicate⟩ := mem_predicates_iff.mp hp
    rcases finite_or_size hpredicate hx with hfinite | ⟨hfield, text, hreads, hsize⟩
    · exact absurd hfinite hinfinite
    · refine ⟨hfield, ?_⟩
      have hlarge : SizeOverflows text := by
        by_contra hsmall
        exact hinfinite ((size?_spec hsize).2.mpr hsmall)
      exact Option.some.inj (hsize.symm.trans hlarge.size?_eq)

/-- A number of gigabytes just below the largest number, compared with the size of a file, is infinite. -/
theorem not_finite_of_gigabytes :
    ¬∀ normalizedCategory query : String, ∀ p ∈ (compile normalizedCategory query).predicates, ∀ x,
      p.literal = .number x → x.isFinite := by
  intro hfinite
  have hpredicates : (compile "normalized" "size:>1e308GB").predicates =
      [⟨.file .size, .gt, .number ⟨false, Double.limit⟩⟩] := by decide +kernel
  have hmem := List.mem_singleton_self (⟨.file .size, .gt, .number ⟨false, Double.limit⟩⟩ : Predicate)
  rw [← hpredicates] at hmem
  exact Double.not_isFinite_limit false (hfinite _ _ _ hmem _ rfl)

end Catalog.Query
