import Catalog.Proofs.Number.Decimal
import Catalog.Proofs.Query.Spelling

/-! Comparisons of the size of a file. The shortcut reads its value as a size and as nothing else, while a
comparison by name reads a literal first and only a text as a size. Which values are told apart by that is
settled here. -/

namespace Catalog.Query

open Catalog.Number Catalog.Text

/-! ### Sizes -/

/-- A size, in capitals, without its unit, and the power of 1024 of the unit. -/
def splitUnit (s : List Char) : List Char × Nat :=
  (sizeUnits.findSome? fun unit => (beforeEnd? unit.1 s).map fun digits => (trim digits, unit.2)).getD
    (s, 0)

theorem size?_eq (s : List Char) :
    size? s = ((Double.read? (splitUnit (upper (trim s))).1).filter fun value =>
      !value.negative || value.units == 0).map fun value =>
        value.mul (Double.ofRatio false (Nat.pow 1024 (splitUnit (upper (trim s))).2) 1) := rfl

/-- Either no unit ends the text, or one does and what is before it is read. -/
theorem splitUnit_cases (s : List Char) :
    splitUnit s = (s, 0) ∨ ∃ unit ∈ sizeUnits, ∃ digits, s = digits ++ unit.1 ∧
      splitUnit s = (trim digits, unit.2) := by
  unfold splitUnit
  cases hfound : sizeUnits.findSome? fun unit =>
      (beforeEnd? unit.1 s).map fun digits => (trim digits, unit.2) with
  | none => exact .inl rfl
  | some found =>
    obtain ⟨unit, hunit, hsome⟩ := List.exists_of_findSome?_eq_some hfound
    obtain ⟨digits, hdigits, rfl⟩ := Option.map_eq_some_iff.mp hsome
    exact .inr ⟨unit, hunit, digits, beforeEnd?_eq_some hdigits, rfl⟩

theorem splitUnit_of_isNumeral {s : List Char} (h : ∀ c ∈ s, Decimal.isNumeral c) :
    splitUnit s = (s, 0) := by
  rcases splitUnit_cases s with hnone | ⟨unit, hunit, digits, rfl, -⟩
  · exact hnone
  · have hends : ∀ unit ∈ sizeUnits, 'B' ∈ unit.1 := by decide
    have hletter := h 'B' (List.mem_append_right _ (hends unit hunit))
    exact absurd hletter (by decide)

/-- A unit is split off whole, unless it makes a longer one with what stands before it. -/
theorem splitUnit_append {front unit : List Char} {power : Nat}
    (hfront : ∀ c ∈ front.getLast?, c ∉ ['G', 'M', 'K']) (hunit : (unit, power) ∈ sizeUnits) :
    splitUnit (front ++ unit) = (trim front, power) := by
  have hlonger : ∀ c ∈ ['G', 'M', 'K'], ¬[c, 'B'] <:+ front ++ ['B'] := by
    rintro c hc ⟨start, heq⟩
    rw [List.append_cons] at heq
    have hstart := List.append_cancel_right heq
    exact hfront c (by rw [← hstart, List.getLast?_concat]; rfl) hc
  have hother : ∀ c d : Char, c ≠ d → ¬[c, 'B'] <:+ front ++ [d, 'B'] := by
    intro c d hne hsuffix
    have hboth := List.suffix_of_suffix_length_le hsuffix (List.suffix_append front [d, 'B']) (Nat.le_refl 2)
    exact hne (List.cons.inj (hboth.eq_of_length rfl)).1
  have hskip {ending s : List Char} (power : Nat) (h : ¬ending <:+ s) :
      ((beforeEnd? ending s).map fun digits => (trim digits, power)) = none := by
    rw [beforeEnd?_eq_none h, Option.map_none]
  have hfound (ending : List Char) (power : Nat) :
      ((beforeEnd? ending (front ++ ending)).map fun digits => (trim digits, power)) =
        some (trim front, power) := by
    rw [beforeEnd?_append, Option.map_some]
  unfold splitUnit
  simp only [sizeUnits, List.mem_cons, Prod.mk.injEq, List.not_mem_nil, or_false] at hunit
  simp only [sizeUnits, List.findSome?_cons]
  -- The longer units are tried first.
  rcases hunit with ⟨rfl, rfl⟩ | ⟨rfl, rfl⟩ | ⟨rfl, rfl⟩ | ⟨rfl, rfl⟩
  · rw [hfound]
    rfl
  · rw [hskip _ (hother _ _ (by decide)), hfound]
    rfl
  · rw [hskip _ (hother _ _ (by decide)), hskip _ (hother _ _ (by decide)), hfound]
    rfl
  · rw [hskip _ (hlonger _ (by decide)), hskip _ (hlonger _ (by decide)), hskip _ (hlonger _ (by decide)),
      hfound]
    rfl

/-- A size as it is written: a number and the power of 1024 of its unit. -/
structure SizeParts where
  number : Double
  power : Nat

namespace SizeParts

/-- The number of bytes, not rounded, in units of the least positive number. -/
def units (parts : SizeParts) : Nat := parts.number.units * 1024 ^ parts.power

/-- The number of bytes as it is rounded. -/
def bytes (parts : SizeParts) : Double := ⟨parts.number.negative, min parts.units Double.limit⟩

/-- A finite number that is not below zero, and a power that a unit stands for. -/
structure IsSize (parts : SizeParts) : Prop where
  finite : parts.number.isFinite
  binary : parts.number.IsBinary64
  nonnegative : parts.number.negative → parts.number.units = 0
  power : parts.power ≤ 3

end SizeParts

/-- The parts of a text that is a size. -/
def sizeParts? (s : List Char) : Option SizeParts :=
  ((Double.read? (splitUnit (upper (trim s))).1).filter fun value =>
    !value.negative || value.units == 0).map fun value => ⟨value, (splitUnit (upper (trim s))).2⟩

theorem splitUnit_snd_le (s : List Char) : (splitUnit s).2 ≤ 3 := by
  rcases splitUnit_cases s with hnone | ⟨unit, hunit, digits, -, hsome⟩
  · rw [hnone]
    exact Nat.zero_le 3
  · have hpowers : ∀ unit ∈ sizeUnits, unit.2 ≤ 3 := by decide
    rw [hsome]
    exact hpowers unit hunit

theorem isSize_of_sizeParts? {s : List Char} {parts : SizeParts} (h : sizeParts? s = some parts) :
    parts.IsSize := by
  obtain ⟨value, hvalue, rfl⟩ := Option.map_eq_some_iff.mp h
  obtain ⟨hread, hnonnegative⟩ := Option.filter_eq_some_iff.mp hvalue
  obtain ⟨-, -, -, hfinite⟩ := Double.exists_decimal_of_read? hread
  refine ⟨hfinite, Double.isBinary64_of_read? hread, fun hnegative => ?_, splitUnit_snd_le _⟩
  dsimp only at hnegative
  simpa [hnegative] using hnonnegative

/-- The product of a size with its unit is not rounded, unless it is too large. -/
theorem SizeParts.IsSize.mul_unit {parts : SizeParts} (h : parts.IsSize) :
    parts.number.mul (Double.ofRatio false (Nat.pow 1024 parts.power) 1) = parts.bytes := by
  have hpower : 1024 ^ parts.power = 2 ^ (10 * parts.power) := Nat.pow_mul 2 10 parts.power |>.symm
  have hsmall : 1024 ^ parts.power ≤ 2 ^ 53 := by
    rw [hpower]
    exact Nat.pow_le_pow_right (by decide) (by have := h.power; omega)
  have hunit : Double.ofRatio false (Nat.pow 1024 parts.power) 1 =
      ⟨false, 2 ^ (10 * parts.power) * Double.one⟩ := by
    rw [← hpower]
    exact congrArg (Double.mk false) (Double.nearest_of_le hsmall)
  rw [hunit, h.binary.mul_pow, SizeParts.bytes, SizeParts.units, hpower]

theorem size?_eq_map (s : List Char) : size? s = (sizeParts? s).map SizeParts.bytes := by
  rw [size?_eq, sizeParts?, Option.map_map]
  refine Option.map_congr fun value hvalue => ?_
  have hparts : sizeParts? s = some ⟨value, (splitUnit (upper (trim s))).2⟩ := by
    rw [sizeParts?, hvalue, Option.map_some]
  exact (isSize_of_sizeParts? hparts).mul_unit

theorem SizeParts.isFinite_bytes (parts : SizeParts) : parts.bytes.isFinite ↔ parts.units < Double.limit := by
  rw [SizeParts.bytes, Double.isFinite, decide_eq_true_eq]
  dsimp only
  generalize Double.limit = limit
  omega

theorem SizeParts.bytes_of_power_zero {number : Double} (h : number.IsBinary64) :
    SizeParts.bytes ⟨number, 0⟩ = number := by
  rw [SizeParts.bytes, SizeParts.units, Nat.pow_zero, Nat.mul_one, Nat.min_eq_left h.bounded]

variable {value : List Char}

/-- A number without a unit is a size if it is not below zero. -/
theorem size?_of_read? (htrimmed : Trimmed value) {number : Double}
    (h : Double.read? value = some number) :
    size? value = if number.negative ∧ number.units ≠ 0 then none else some number := by
  have hnumerals : ∀ c ∈ upper value, Decimal.isNumeral c :=
    Double.isNumeral_of_read? (Double.read?_upper value ▸ h)
  rw [size?_eq_map, sizeParts?, htrimmed.trim_eq, splitUnit_of_isNumeral hnumerals, Double.read?_upper, h,
    Option.filter_some]
  dsimp only
  by_cases hbelow : number.negative ∧ number.units ≠ 0
  · simp [hbelow.1, hbelow.2]
  · have hkept : (!number.negative || number.units == 0) = true := by
      simpa [imp_iff_not_or] using hbelow
    rw [if_pos hkept, if_neg hbelow, Option.map_some, Option.map_some,
      SizeParts.bytes_of_power_zero (Double.isBinary64_of_read? h)]

/-- A text is no size if it starts with a character that starts neither a number nor a unit. -/
theorem size?_eq_none {c : Char} {rest : List Char} (htrimmed : Trimmed (c :: rest))
    (hnumeral : Decimal.isNumeral c.toUpper = false) (hblank : isBlank c.toUpper = false)
    (hunit : ∀ unit ∈ sizeUnits, c.toUpper ∉ unit.1) : size? (c :: rest) = none := by
  have hmem : c.toUpper ∈ (splitUnit (upper (c :: rest))).1 := by
    rcases splitUnit_cases (upper (c :: rest)) with hwhole | ⟨unit, hmem, digits, heq, hsplit⟩
    · rw [hwhole]
      exact List.mem_cons_self
    · rw [hsplit]
      cases digits with
      | nil =>
        rw [List.nil_append] at heq
        exact absurd (heq ▸ List.mem_cons_self) (hunit unit hmem)
      | cons d digits =>
        -- The character is no blank and so is not trimmed away with what stands before the unit.
        obtain ⟨rfl, -⟩ := List.cons.inj heq
        exact mem_trim List.mem_cons_self hblank
  have hnone : Double.read? (splitUnit (upper (c :: rest))).1 = none := by
    by_contra hsome
    obtain ⟨number, hread⟩ := Option.ne_none_iff_exists'.mp hsome
    rw [Double.isNumeral_of_read? hread _ hmem] at hnumeral
    cases hnumeral
  rw [size?_eq, htrimmed.trim_eq, hnone]
  rfl

/-! ### Truth values and quotes -/

def truthWords : List (List Char) := ["true", "yes", "false", "no"].map String.toList

theorem exists_truthWord (h : (truth? value).isSome) :
    ∃ word ∈ truthWords, sameLetters value word := by
  unfold truth? at h
  split at h
  · rename_i hword
    rcases Bool.or_eq_true_iff.mp hword with hword | hword
    · exact ⟨_, by decide, hword⟩
    · exact ⟨_, by decide, hword⟩
  · split at h
    · rename_i hword
      rcases Bool.or_eq_true_iff.mp hword with hword | hword
      · exact ⟨_, by decide, hword⟩
      · exact ⟨_, by decide, hword⟩
    · cases h

theorem upper_mem_of_truth? (h : (truth? value).isSome) : upper value ∈ truthWords.map upper := by
  obtain ⟨word, hmem, hsame⟩ := exists_truthWord h
  rw [upper_of_sameLetters hsame]
  exact List.mem_map_of_mem hmem

theorem read?_of_truth? (h : (truth? value).isSome) : Double.read? value = none := by
  have hwords : ∀ word ∈ truthWords.map upper, Double.read? word = none := by decide +kernel
  rw [← Double.read?_upper]
  exact hwords _ (upper_mem_of_truth? h)

theorem size?_of_truth? (htrimmed : Trimmed value) (h : (truth? value).isSome) : size? value = none := by
  have hwords : ∀ word ∈ truthWords.map upper, Double.read? (splitUnit word).1 = none := by
    decide +kernel
  rw [size?_eq, htrimmed.trim_eq, hwords _ (upper_mem_of_truth? h)]
  rfl

theorem head_of_stripQuotes (h : stripQuotes value ≠ value) :
    ∃ c rest, value = c :: rest ∧ isQuote c := by
  unfold stripQuotes at h
  split at h
  · exact ⟨_, _, rfl, by decide⟩
  · exact ⟨_, _, rfl, by decide⟩
  · exact absurd rfl h

theorem size?_of_quotes (htrimmed : Trimmed value) (h : stripQuotes value ≠ value) :
    size? value = none := by
  obtain ⟨c, rest, rfl, hquote⟩ := head_of_stripQuotes h
  rcases eq_of_isQuote hquote with rfl | rfl <;>
    exact size?_eq_none htrimmed (by decide) (by decide) (by decide)

/-! ### Two spellings -/

/-- The comparison by name makes something else of the value than a size: a number below zero, a truth
value, or the size inside of quotes. -/
def ReadsApart (value : List Char) : Prop :=
  (∃ number, Double.read? value = some number ∧ number.negative ∧ number.units ≠ 0) ∨
    (truth? value).isSome ∨ stripQuotes value ≠ value ∧ (size? (stripQuotes value)).isSome

variable {op : Operator}

theorem literalAgainst?_size_of_read {literal : Literal} (hop : op ∈ leadingOperators)
    (h : Literal.read value = literal) (hliteral : ∀ text, literal ≠ .text text) :
    literalAgainst? (.file .size) op value = some literal := by
  rw [← literalFor_of_mem_leadingOperators hop] at h
  unfold literalAgainst?
  generalize literalFor op value = found at h ⊢
  subst h
  cases found with
  | text text => exact absurd rfl (hliteral text)
  | _ => rfl

theorem literalAgainst?_size_of_verbatim (hop : op ∈ leadingOperators)
    (h : Literal.read value = .verbatim value) :
    literalAgainst? (.file .size) op value = (size? (stripQuotes value)).map .number := by
  rw [← literalFor_of_mem_leadingOperators hop, Literal.verbatim] at h
  unfold literalAgainst?
  generalize literalFor op value = found at h ⊢
  subst h
  dsimp only
  rw [String.toList_ofList]

/-- What is compared with the size by name is the value as a size, unless the two read apart. -/
theorem literalAgainst?_size_iff (htrimmed : Trimmed value) (hop : op ∈ leadingOperators) :
    literalAgainst? (.file .size) op value = (size? value).map .number ↔ ¬ReadsApart value := by
  rcases read_cases htrimmed with ⟨number, hread, hliteral⟩ | ⟨hread, hcases⟩
  · have htruth : truth? value = none := by
      by_contra hsome
      rw [read?_of_truth? (Option.isSome_iff_ne_none.mpr hsome)] at hread
      cases hread
    have hquotes : stripQuotes value = value := by
      by_contra hquoted
      obtain ⟨c, rest, rfl, hquote⟩ := head_of_stripQuotes hquoted
      have hnumeral := Double.isNumeral_of_read? hread c List.mem_cons_self
      rcases eq_of_isQuote hquote with rfl | rfl <;> exact absurd hnumeral (by decide)
    rw [literalAgainst?_size_of_read hop hliteral (by simp), size?_of_read? htrimmed hread]
    simp only [ReadsApart, hread, htruth, hquotes, Option.some.injEq, exists_eq_left', ne_eq]
    by_cases hbelow : number.negative ∧ ¬number.units = 0 <;> simp [hbelow]
  · rcases hcases with ⟨truth, htruth, hliteral⟩ | ⟨htruth, hliteral⟩
    · have hsome : (truth? value).isSome := by rw [htruth]; rfl
      rw [literalAgainst?_size_of_read hop hliteral (by simp), size?_of_truth? htrimmed hsome]
      simp [ReadsApart, hsome]
    · rw [literalAgainst?_size_of_verbatim hop hliteral]
      by_cases hquotes : stripQuotes value = value
      · simp [ReadsApart, hread, htruth, hquotes]
      · rw [size?_of_quotes htrimmed hquotes]
        cases hsize : size? (stripQuotes value) <;> simp [ReadsApart, hread, htruth, hquotes, hsize]

theorem predicates_ofList (normalizedCategory : String) (text : List Char) :
    (compile normalizedCategory (String.ofList text)).predicates =
      (clauses text).filterMap (predicate? normalizedCategory) := by
  rw [compile, String.toList_ofList]

/-- The size of a file compared by the shortcut. -/
def sizeShortcut (op : Operator) (value : List Char) : String :=
  String.ofList (shortcutText "size:".toList (some op) value)

/-- The size of a file compared by its name. -/
def sizeComparison (op : Operator) (value : List Char) : String :=
  String.ofList (comparisonText "size".toList op value)

theorem nameable_size : Nameable "size".toList :=
  .of_noColon (by decide) (List.all_eq_true.mp (by decide)) (by decide)

theorem mem_shortcuts_size : ⟨"size:", .inl .size, .sized⟩ ∈ shortcuts := by simp [shortcuts]

/-- The shortcut reads its value as a size. Without an operator the sizes must be equal. -/
theorem predicate?_sizeShortcut (hvalue : Writable value) {lead : Option Operator}
    (hlead : ∀ op ∈ lead, op ∈ leadingOperators) (normalizedCategory : String) :
    predicate? normalizedCategory (shortcutText "size:".toList lead value) =
      (size? value).map fun bytes => ⟨.file .size, lead.getD .eq, .number bytes⟩ := by
  have hcomparison : ShortcutForm.sized.comparison? (leadText lead ++ value) =
      (size? value).map fun bytes => (lead.getD .eq, .number bytes) := by
    rw [ShortcutForm.comparison?, hvalue.takeOperator_leadText hlead]
  rw [hvalue.predicate?_shortcutText mem_shortcuts_size (by decide), Shortcut.predicate?, hcomparison]
  generalize size? value = size
  cases size <;> rfl

theorem compile_sizeShortcut (hvalue : Writable value) (hop : op ∈ leadingOperators)
    (normalizedCategory : String) :
    (compile normalizedCategory (sizeShortcut op value)).predicates =
      ((size? value).map fun bytes => ⟨.file .size, op, .number bytes⟩).toList := by
  have hlead : ∀ other ∈ some op, other ∈ leadingOperators := by simpa using hop
  rw [sizeShortcut, predicates_ofList,
    hvalue.clauses_shortcutText mem_shortcuts_size (by decide) _ hlead, List.filterMap_cons,
    predicate?_sizeShortcut hvalue hlead]
  generalize size? value = size
  cases size <;> rfl

theorem predicate?_size_without_value (hop : op ∈ leadingOperators) (normalizedCategory : String) :
    predicate? normalizedCategory ("size ".toList ++ op.symbol) = none := by
  simp only [leadingOperators, List.mem_cons, List.not_mem_nil, or_false] at hop
  rcases hop with rfl | rfl | rfl | rfl | rfl <;> rfl

theorem compile_sizeComparison (hvalue : Writable value) (hop : op ∈ leadingOperators)
    (hand : ¬['A', 'N', 'D', ' '] <+: value) (normalizedCategory : String) :
    (compile normalizedCategory (sizeComparison op value)).predicates =
      ((literalAgainst? (.file .size) op value).map fun literal =>
        ⟨.file .size, op, literal⟩).toList := by
  have hcontains : op ≠ .contains := by
    rintro rfl
    exact absurd hop (by decide)
  have hresolved : resolve? normalizedCategory "size".toList = some (.file .size) := rfl
  have hpredicate : predicate? normalizedCategory (comparisonText "size".toList op value) =
      (literalAgainst? (.file .size) op value).map fun literal => ⟨.file .size, op, literal⟩ := by
    rw [predicate?_comparisonText nameable_size hvalue.trimmed hvalue.nonempty
      (hvalue.precedesIn hcontains), hresolved]
    rfl
  rw [sizeComparison, predicates_ofList, clauses_comparisonText nameable_size hvalue.trimmed
    hvalue.nonempty hvalue.uncut hand, List.filterMap_cons, hpredicate]
  generalize literalAgainst? (.file .size) op value = literal
  cases literal <;> rfl

/-- The comparison without its value can be a clause. -/
theorem standalone_size (hop : op ∈ leadingOperators) : Standalone ("size ".toList ++ op.symbol) := by
  have hplain : ∀ op ∈ leadingOperators, ("size ".toList ++ op.symbol).all fun c => !isQuote c := by
    decide
  refine ⟨?_, by simp, fun _ => openAfter_of_plain fun c hc => ?_, ?_⟩
  · simp only [leadingOperators, List.mem_cons, List.not_mem_nil, or_false] at hop
    rcases hop with rfl | rfl | rfl | rfl | rfl <;> exact .of_all (by decide) (by decide)
  · simpa using List.all_eq_true.mp (hplain op hop) c hc
  · simp only [leadingOperators, List.mem_cons, List.not_mem_nil, or_false] at hop
    rcases hop with rfl | rfl | rfl | rfl | rfl <;> rfl

/-- A value that begins like the rest of a separator makes one with the blank before it: the comparison is
left without a value, and what follows is read on its own. -/
theorem compile_sizeComparison_and {rest : List Char} (hvalue : Writable (['A', 'N', 'D', ' '] ++ rest))
    (hop : op ∈ leadingOperators) (normalizedCategory : String) :
    (compile normalizedCategory (sizeComparison op (['A', 'N', 'D', ' '] ++ rest))).predicates =
      (compile normalizedCategory (String.ofList rest)).predicates := by
  have htext : comparisonText "size".toList op (['A', 'N', 'D', ' '] ++ rest) =
      "size ".toList ++ op.symbol ++ separator ++ rest := by
    simp [comparisonText, spelledText, separator]
  have hstandalone := standalone_size hop
  have hwhole : (trim (comparisonText "size".toList op (['A', 'N', 'D', ' '] ++ rest))).isEmpty = false := by
    rw [(trimmed_comparisonText nameable_size hvalue.trimmed hvalue.nonempty).trim_eq]
    simp [comparisonText, spelledText]
  have hrest : (trim rest).isEmpty = false := by
    have hne : rest ≠ [] := by
      rintro rfl
      exact absurd (hvalue.trimmed.last ' ' rfl) (by decide)
    have hlast : isBlank (rest.getLast hne) = false :=
      hvalue.trimmed.last _ (by rw [List.getLast?_append, List.getLast?_eq_some_getLast hne]; rfl)
    have hmem := mem_trim (List.getLast_mem hne) hlast
    simpa using List.ne_nil_of_mem hmem
  have hclauses : clauses (comparisonText "size".toList op (['A', 'N', 'D', ' '] ++ rest)) =
      ("size ".toList ++ op.symbol) :: clauses rest := by
    rw [clauses, clauses, hwhole, hrest, htext, hstandalone.segments_append_separator, List.map_cons,
      hstandalone.trimmed.trim_eq]
    rfl
  rw [sizeComparison, predicates_ofList, predicates_ofList, hclauses, List.filterMap_cons,
    predicate?_size_without_value hop]

theorem size?_and {rest : List Char} (h : Trimmed (['A', 'N', 'D', ' '] ++ rest)) :
    size? (['A', 'N', 'D', ' '] ++ rest) = none :=
  size?_eq_none h (by decide) (by decide) (by decide)

/-- The size of a file is compared with the same number in both spellings, or in neither, exactly if the
value does not read apart as a literal. A value that begins with a separator is no value in the comparison
by name, which means what follows. -/
theorem size_spellings_agree_iff (hvalue : Writable value) (hop : op ∈ leadingOperators)
    (normalizedCategory : String) :
    let short := (compile normalizedCategory (sizeShortcut op value)).predicates
    let long := (compile normalizedCategory (sizeComparison op value)).predicates
    short = ((size? value).map fun bytes => ⟨.file .size, op, .number bytes⟩).toList ∧
      (¬['A', 'N', 'D', ' '] <+: value → (short = long ↔ ¬ReadsApart value)) ∧
      ∀ rest, value = ['A', 'N', 'D', ' '] ++ rest →
        short = [] ∧ long = (compile normalizedCategory (String.ofList rest)).predicates := by
  intro short long
  have hshort : short = _ := compile_sizeShortcut hvalue hop normalizedCategory
  refine ⟨hshort, fun hand => ?_, ?_⟩
  · have hlong : long = _ := compile_sizeComparison hvalue hop hand normalizedCategory
    rw [hshort, hlong, ← literalAgainst?_size_iff hvalue.trimmed hop, eq_comm]
    generalize literalAgainst? (.file .size) op value = literal
    generalize size? value = size
    cases literal <;> cases size <;> simp
  · rintro rest rfl
    refine ⟨?_, compile_sizeComparison_and hvalue hop normalizedCategory⟩
    rw [hshort, size?_and hvalue.trimmed]
    rfl

/-- A number of megabytes, and a value that begins with a separator. -/
theorem size_spellings_of_megabytes :
    let value := "1.5 mb".toList
    let other := ['A', 'N', 'D', ' '] ++ "name:a".toList
    (Writable value ∧ .ge ∈ leadingOperators ∧ ¬['A', 'N', 'D', ' '] <+: value ∧ ¬ReadsApart value) ∧
      Writable other ∧
      (compile "normalized" "size:>=1.5 mb").predicates =
        (compile "normalized" "size >= 1.5 mb").predicates ∧
      (compile "normalized" "size:>=1.5 mb").predicates =
        [⟨.file .size, .ge, .number (Double.ofInt 1572864)⟩] ∧
      (compile "normalized" "size:>=AND name:a").predicates = [] ∧
      (compile "normalized" "size >= AND name:a").predicates =
        (compile "normalized" "name:a").predicates := by
  intro value other
  have hop : Operator.ge ∈ leadingOperators := by decide
  have hvalue : Writable value :=
    .of_noSign (.of_all (by decide) (by decide)) (by decide) (by simp [value, isSign]) (by decide +kernel)
  have hother : Writable other :=
    .of_noSign (.of_all (by decide) (by decide)) (by decide) (by simp [other, isSign]) (by decide +kernel)
  have hand : ¬['A', 'N', 'D', ' '] <+: value := by decide
  have happart : ¬ReadsApart value := by
    have hread : Double.read? value = none := by decide +kernel
    have htruth : truth? value = none := by decide +kernel
    have hquotes : stripQuotes value = value := by decide +kernel
    simp [ReadsApart, hread, htruth, hquotes]
  obtain ⟨hshort, hagree, -⟩ := size_spellings_agree_iff hvalue hop "normalized"
  obtain ⟨-, -, hmore⟩ := size_spellings_agree_iff hother hop "normalized"
  refine ⟨⟨hvalue, hop, hand, happart⟩, hother, (hagree hand).mpr happart, hshort.trans ?_,
    hmore _ rfl⟩
  decide +kernel

/-- A size below zero is dropped by the shortcut and compared by name. -/
theorem size_spellings_disagree_below_zero :
    ¬∀ value : List Char, Trimmed value → value ≠ [] → (∀ c ∈ value, ¬isSign c) →
      (clauses value).length = 1 → ∀ op ∈ leadingOperators,
        (compile "normalized" (sizeShortcut op value)).predicates =
          (compile "normalized" (sizeComparison op value)).predicates := by
  intro hagree
  have hsame := hagree "-5".toList (.of_all (by decide) (by decide)) (by decide) (by simp [isSign])
    (by decide +kernel) .gt (by decide)
  exact absurd hsame (by decide +kernel)

end Catalog.Query
