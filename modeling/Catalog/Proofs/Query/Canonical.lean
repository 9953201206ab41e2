import Catalog.Proofs.Json.Number
import Catalog.Query.Literal

/-! The canonical text of a number, against the text that the number has in a document. They are one text
for an integer that is the shortest decimal of its binary64 number, and for a binary64 number with a fraction
unless its text has an exponent or the two forms break a tie apart. A whole binary64 number has a point or an
exponent in a document, and neither in its canonical text. -/

namespace Catalog.Query

open Catalog.Number Catalog.Text

variable {form : WrittenForm} {units n : Nat} {negative : Bool}

/-! ### Signs -/

/-- The text with a sign in front if the number is below zero. -/
def signed (negative : Bool) (s : List Char) : List Char := if negative then '-' :: s else s

theorem signed_inj {s t : List Char} : signed negative s = signed negative t ↔ s = t := by
  cases negative <;> simp [signed]

theorem mem_signed {c : Char} (hc : c ≠ '-') {s : List Char} : c ∈ signed negative s ↔ c ∈ s := by
  cases negative <;> simp [signed, hc]

theorem integerText_eq (value : Int) :
    integerText value = signed (decide (value < 0)) (Nat.toDigits 10 value.natAbs) := by
  unfold integerText signed
  simp only [decide_eq_true_eq]

theorem write_eq {x : Double} (hfinite : x.isFinite) (hpos : 0 < x.units) :
    form.write x = signed x.negative (form.magnitude x.units) := by
  unfold WrittenForm.write signed
  rw [hfinite]
  simp [hpos.ne']

/-! ### Whole numbers -/

/-- The whole number that a whole magnitude is written as without an exponent. -/
def shortestWhole (units : Nat) : Nat :=
  (Shortest.digits .up units).1 * 10 ^ (Shortest.digits .up units).2.toNat

theorem shortestWhole_mul_one (hn : n ≤ 2 ^ 53) : shortestWhole (n * Double.one) = n := by
  rcases Nat.eq_zero_or_pos n with rfl | hpos
  · rw [Nat.zero_mul]
    decide +kernel
  · exact (Shortest.value_digits_of_whole .up hpos hn).2

section Whole

variable (hbinary : Double.IsBinary units) (hpos : 0 < units) (hlimit : units ≤ Double.limit)
include hbinary hpos hlimit

theorem plain_magnitude_of_whole (hwhole : Double.one ∣ units) :
    plain.magnitude units = Nat.toDigits 10 (shortestWhole units) := by
  have hexponent := (Shortest.exponent_nonneg_iff .up hbinary hpos hlimit).mpr hwhole
  have hdigits := Shortest.digits_ne_zero .up hbinary hpos hlimit
  rw [shortestWhole, toDigits_mul_pow (Nat.pos_of_ne_zero hdigits)]
  unfold WrittenForm.magnitude WrittenForm.positional
  change (if 0 ≤ (Shortest.digits .up units).2 then _ else _) = _
  rw [if_pos hexponent]
  exact List.append_nil _

/-- The text of a whole magnitude in a document has a point or an exponent. -/
theorem mark_mem_magnitude_of_whole (hwhole : Double.one ∣ units) :
    '.' ∈ inJson.magnitude units ∨ 'e' ∈ inJson.magnitude units := by
  have hexponent := (Shortest.exponent_nonneg_iff .even hbinary hpos hlimit).mpr hwhole
  unfold WrittenForm.magnitude
  change 0 ≤ (Shortest.digits inJson.tie units).2 at hexponent
  dsimp only
  generalize Shortest.digits inJson.tie units = shortest at hexponent ⊢
  split
  · refine .inl ?_
    unfold WrittenForm.positional
    rw [if_pos hexponent]
    exact List.mem_append_right _ List.mem_cons_self
  · exact .inr (by simp [WrittenForm.scientific])

end Whole

theorem numberText_of_small {x : Double} (hx : x.units = n * Double.one) (hn : n < integerBound) :
    Literal.numberText x = integerText (if x.negative then -n else n) := by
  have hone := Double.unitsInOne_pos
  have hlimit : integerBound * Double.one < Double.limit := by decide +kernel
  have hsmall : n * Double.one < integerBound * Double.one := Nat.mul_lt_mul_of_pos_right hn hone
  have hwhole : x.isWhole := by
    rw [Double.isWhole_iff, Double.isFinite, hx]
    exact ⟨decide_eq_true (hsmall.trans hlimit), Nat.dvd_mul_left _ _⟩
  have hvalue : x.toInt / (Double.one : Int) = if x.negative then -(n : Int) else n := by
    have hunit : (Double.one : Int) ≠ 0 := by exact_mod_cast hone.ne'
    unfold Double.toInt
    rw [hx]
    generalize Double.one = unit at hunit ⊢
    rw [Nat.cast_mul]
    split
    · rw [← Int.neg_mul, Int.mul_ediv_cancel _ hunit]
    · rw [Int.mul_ediv_cancel _ hunit]
  unfold Literal.numberText
  rw [hx, if_pos ⟨hwhole, hsmall⟩, hvalue]

/-- Past the bound a whole number is written with its shortest digits and zeros. -/
theorem numberText_of_large {x : Double} (hx : x.IsBinary64) (hwhole : x.isWhole)
    (hlarge : integerBound * Double.one ≤ x.units) :
    Literal.numberText x = signed x.negative (Nat.toDigits 10 (shortestWhole x.units)) := by
  have hbound : 0 < integerBound * Double.one := by decide +kernel
  have hpos := hbound.trans_le hlarge
  obtain ⟨hfinite, hdvd⟩ := Double.isWhole_iff.mp hwhole
  unfold Literal.numberText
  rw [if_neg fun h => Nat.not_lt.mpr hlarge h.2, write_eq hfinite hpos,
    plain_magnitude_of_whole hx.binary hpos hx.bounded hdvd]

theorem exists_digits_of_isWhole {x : Double} (hx : x.IsBinary64) (hwhole : x.isWhole) :
    ∃ negative n, Literal.numberText x = signed negative (Nat.toDigits 10 n) := by
  rcases Nat.lt_or_ge x.units (integerBound * Double.one) with hsmall | hlarge
  · obtain ⟨n, hn⟩ := (Double.isWhole_iff.mp hwhole).2
    rw [Nat.mul_comm] at hn
    rw [hn] at hsmall
    rw [numberText_of_small hn (Nat.lt_of_mul_lt_mul_right hsmall), integerText_eq]
    exact ⟨_, _, rfl⟩
  · exact ⟨_, _, numberText_of_large hx hwhole hlarge⟩

/-- A whole binary64 number is written in another way in a document. -/
theorem numberText_ne_of_isWhole {x : Double} (hx : x.IsBinary64) (hwhole : x.isWhole) :
    Literal.numberText x ≠ inJson.write x := by
  have hmark : ∃ c ∈ inJson.write x, c.isDigit = false ∧ c ≠ '-' := by
    rcases Nat.eq_zero_or_pos x.units with hzero | hpos
    · refine ⟨'.', ?_, by decide⟩
      obtain ⟨negative, units⟩ := x
      obtain rfl : units = 0 := hzero
      cases negative <;> decide +kernel
    · obtain ⟨hfinite, hdvd⟩ := Double.isWhole_iff.mp hwhole
      rw [write_eq hfinite hpos]
      rcases mark_mem_magnitude_of_whole hx.binary hpos hx.bounded hdvd with hpoint | hexponent
      · exact ⟨'.', (mem_signed (by decide)).mpr hpoint, by decide⟩
      · exact ⟨'e', (mem_signed (by decide)).mpr hexponent, by decide⟩
  obtain ⟨negative, n, htext⟩ := exists_digits_of_isWhole hx hwhole
  obtain ⟨c, hc, hdigit, hsign⟩ := hmark
  intro hsame
  rw [← hsame, htext, mem_signed hsign] at hc
  rw [isDigit_of_mem_toDigits hc] at hdigit
  cases hdigit

/-! ### Fractions -/

theorem positional_of_neg {digits : List Char} {exponent : Int} (h : exponent < 0) :
    form.positional digits exponent = plain.positional digits exponent := by
  simp only [WrittenForm.positional, if_neg (Int.not_le.mpr h)]

theorem e_not_mem_positional {exponent : Int} (d : Nat) (h : exponent < 0) :
    'e' ∉ form.positional (Nat.toDigits 10 d) exponent := by
  have hdigits : 'e' ∉ Nat.toDigits 10 d := fun h => absurd (isDigit_of_mem_toDigits h) (by decide)
  unfold WrittenForm.positional
  rw [if_neg (by omega)]
  dsimp only
  split
  · simp only [List.mem_append, List.mem_cons, not_or]
    exact ⟨fun h => hdigits (List.mem_of_mem_take h), by decide,
      fun h => hdigits (List.mem_of_mem_drop h)⟩
  · simp [hdigits]

theorem inJson_magnitude_cases (units : Nat) :
    inJson.magnitude units = inJson.positional (Nat.toDigits 10 (Shortest.digits .even units).1)
        (Shortest.digits .even units).2 ∨
      ∃ leading, inJson.magnitude units =
        WrittenForm.scientific (Nat.toDigits 10 (Shortest.digits .even units).1) leading := by
  unfold WrittenForm.magnitude
  dsimp only
  split
  · exact .inl rfl
  · exact .inr ⟨_, rfl⟩

theorem plain_magnitude (units : Nat) :
    plain.magnitude units = plain.positional (Nat.toDigits 10 (Shortest.digits .up units).1)
      (Shortest.digits .up units).2 := rfl

theorem e_mem_scientific (digits : List Char) (leading : Int) :
    'e' ∈ WrittenForm.scientific digits leading := by
  simp [WrittenForm.scientific]

/-- The forms agree on a magnitude with a fraction if it is written in its places and has the same digits
in both. -/
theorem magnitude_eq_iff (hbinary : Double.IsBinary units) (hpos : 0 < units)
    (hlimit : units ≤ Double.limit) (hfraction : ¬Double.one ∣ units) :
    plain.magnitude units = inJson.magnitude units ↔
      'e' ∉ inJson.magnitude units ∧ Shortest.digits .even units = Shortest.digits .up units := by
  have hup := (Shortest.exponent_nonneg_iff .up hbinary hpos hlimit).not.mpr hfraction
  have heven := (Shortest.exponent_nonneg_iff .even hbinary hpos hlimit).not.mpr hfraction
  rw [not_le] at hup heven
  rw [plain_magnitude]
  rcases inJson_magnitude_cases units with hplaces | ⟨leading, hexponent⟩
  · rw [hplaces]
    generalize Shortest.digits .up units = shortest at hup ⊢
    generalize Shortest.digits .even units = shortest' at heven ⊢
    rw [positional_of_neg heven]
    constructor
    · -- Read back, the texts give the digits and exponents that they were written from.
      intro hsame
      have hread := congrArg Decimal.read? hsame
      rw [WrittenForm.read?_positional_of_neg plain _ hup,
        WrittenForm.read?_positional_of_neg plain _ heven] at hread
      obtain ⟨-, hd, he⟩ := Decimal.mk.inj (Option.some.inj hread)
      exact ⟨e_not_mem_positional _ heven, (Prod.ext hd he).symm⟩
    · rintro ⟨-, hsame⟩
      rw [hsame]
  · rw [hexponent]
    refine iff_of_false (fun hsame => ?_) fun h => h.1 (e_mem_scientific _ _)
    exact e_not_mem_positional _ hup (hsame ▸ e_mem_scientific _ _)

/-! ### Numbers of documents -/

/-- The canonical text of the number is the text that it has in a document: an integer is the shortest
decimal of its binary64 number; a binary64 number has a fraction, no exponent, and the same shortest digits
whichever way a tie is broken. -/
def IsCanonical : Json.Number → Prop
  | .integer value => shortestWhole (Double.ofInt value).units = value.natAbs
  | .double value => value.isWhole = false ∧ 'e' ∉ inJson.write value ∧
      Shortest.digits .even value.units = Shortest.digits .up value.units

theorem isCanonical_integer {value : Int} :
    IsCanonical (.integer value) ↔ shortestWhole (Double.ofInt value).units = value.natAbs := Iff.rfl

theorem isCanonical_double {value : Double} :
    IsCanonical (.double value) ↔ value.isWhole = false ∧ 'e' ∉ inJson.write value ∧
      Shortest.digits .even value.units = Shortest.digits .up value.units := Iff.rfl

theorem units_ofInt {value : Int} (h : value.natAbs ≤ 2 ^ 53) :
    (Double.ofInt value).units = value.natAbs * Double.one := Double.nearest_of_le h

theorem isCanonical_of_le {value : Int} (h : value.natAbs ≤ 2 ^ 53) : IsCanonical (.integer value) := by
  rw [isCanonical_integer, units_ofInt h, shortestWhole_mul_one h]

theorem numberText_ofInt_iff {value : Int} (h : (Json.Number.integer value).InRange) :
    Literal.numberText (Double.ofInt value) = integerText value ↔ IsCanonical (.integer value) := by
  obtain ⟨hbinary, hfinite⟩ := Json.Number.finite_toDouble h
  change (Double.ofInt value).IsBinary64 at hbinary
  change (Double.ofInt value).isFinite at hfinite
  have hwhole : (Double.ofInt value).isWhole :=
    Double.isWhole_iff.mpr ⟨hfinite, Double.one_dvd_nearest value.natAbs⟩
  -- The bound is one of numbers, not of their texts; rounding does not lead across it.
  rcases Nat.lt_or_ge value.natAbs integerBound with hsmall | hlarge
  · have hfits : value.natAbs ≤ 2 ^ 53 := hsmall.le.trans (by decide)
    have hvalue : (if (Double.ofInt value).negative then -(value.natAbs : Int) else value.natAbs) =
        value := by
      have hnegative : (Double.ofInt value).negative = decide (value < 0) := rfl
      simp only [hnegative, decide_eq_true_eq]
      split <;> omega
    refine iff_of_true ?_ (isCanonical_of_le hfits)
    rw [numberText_of_small (units_ofInt hfits) hsmall, hvalue]
  · have hlimit : integerBound * Double.one ≤ Double.limit := by decide +kernel
    have hbound : integerBound * Double.one ≤ (Double.ofInt value).units := by
      have hunits : (Double.ofInt value).units = Double.nearest value.natAbs 1 := rfl
      have hle : integerBound * Double.one * 1 ≤ value.natAbs * Double.one := by
        rw [Nat.mul_one]
        exact Nat.mul_le_mul_right _ hlarge
      rw [hunits]
      exact Double.le_nearest_of_le Nat.one_pos (Double.isBinary_mul_one (by decide)) hlimit hle
    rw [isCanonical_integer, numberText_of_large hbinary hwhole hbound, integerText_eq]
    change signed (decide (value < 0)) _ = _ ↔ _
    rw [signed_inj]
    exact ⟨toDigits_injective, congrArg _⟩

theorem numberText_double_iff {value : Double} (h : (Json.Number.double value).InRange) :
    Literal.numberText value = inJson.write value ↔ IsCanonical (.double value) := by
  obtain ⟨hbinary, hfinite⟩ := h
  rw [isCanonical_double]
  cases hwhole : value.isWhole with
  | true =>
    exact iff_of_false (numberText_ne_of_isWhole hbinary hwhole) fun h => Bool.noConfusion h.1
  | false =>
    have hfraction : ¬Double.one ∣ value.units := by
      intro hdvd
      rw [Double.isWhole_iff.mpr ⟨hfinite, hdvd⟩] at hwhole
      cases hwhole
    have hpos : 0 < value.units := Nat.pos_of_ne_zero fun hzero => hfraction (hzero ▸ Nat.dvd_zero _)
    have hplain : Literal.numberText value = plain.write value := by
      unfold Literal.numberText
      rw [if_neg fun h => absurd h.1 (by rw [hwhole]; decide)]
    rw [hplain, write_eq hfinite hpos, write_eq hfinite hpos, signed_inj, mem_signed (by decide),
      magnitude_eq_iff hbinary.binary hpos hbinary.bounded hfraction]
    simp

/-- The canonical text of a number is its text in documents exactly if the number is canonical. -/
theorem numberText_eq_text_iff {n : Json.Number} (h : n.InRange) :
    Literal.numberText n.toDouble = n.text ↔ IsCanonical n := by
  cases n with
  | integer value => exact numberText_ofInt_iff h
  | double value => exact numberText_double_iff h

/-- Halfway between two shortest decimals. -/
example :
    let value : Double := ⟨false, (2 ^ 33 + 1) * 2 ^ 1064⟩
    (inJson.write value, plain.write value) =
      ("8388608.000976562".toList, "8388608.000976563".toList) := by decide +kernel

end Catalog.Query
