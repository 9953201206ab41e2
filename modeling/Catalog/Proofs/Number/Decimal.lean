import Catalog.Number.Decimal
import Catalog.Proofs.Number.Rounding
import Catalog.Proofs.Text.Ascii
import Mathlib.Data.List.TakeWhile
import Mathlib.Tactic.NormNum

/-! Decimals as they are written: which texts read as which decimal, and what a decimal rounds to. The
number depends on nothing but the value of the decimal, and the places at which reading gives up computing
change no result. -/

namespace Catalog.Number

open Catalog.Text

namespace Decimal

/-! ### Texts -/

theorem takeSign_of_isDigit {s : List Char} (h : ∀ c ∈ s.head?, c.isDigit) :
    takeSign s = (false, s) := by
  unfold takeSign
  split
  · exact absurd (h '-' rfl) (by decide)
  · exact absurd (h '+' rfl) (by decide)
  · rfl

theorem exponent?_cons (negative : Bool) {digits : List Char} (hne : digits ≠ [])
    (hdigits : ∀ c ∈ digits, c.isDigit) :
    exponent? ('e' :: (if negative then '-' else '+') :: digits) =
      some (if negative then -(digitsValue digits : Int) else digitsValue digits) := by
  have hsign : takeSign ((if negative then '-' else '+') :: digits) = (negative, digits) := by
    cases negative <;> rfl
  rw [exponent?, hsign]
  simp [hne, List.all_eq_true.mpr hdigits]

section Unsigned

variable (whole fraction rest : List Char) (hne : whole ≠ []) (hwhole : ∀ c ∈ whole, c.isDigit)
include hne hwhole

theorem takeSign_append : takeSign (whole ++ rest) = (false, whole ++ rest) := by
  refine takeSign_of_isDigit fun c hc => ?_
  obtain ⟨first, others, rfl⟩ := List.exists_cons_of_ne_nil hne
  obtain rfl : first = c := Option.some.inj hc
  exact hwhole first List.mem_cons_self

theorem read?_whole (hrest : ∀ c ∈ rest.head?, c.isDigit = false ∧ c ≠ '.') :
    read? (whole ++ rest) =
      (exponent? rest).map fun e => ⟨false, digitsValue whole, e⟩ := by
  have hdigits : rest.takeWhile Char.isDigit = [] ∧ rest.dropWhile Char.isDigit = rest := by
    cases rest with
    | nil => exact ⟨rfl, rfl⟩
    | cons c rest => simp [(hrest c rfl).1]
  have hfraction : takeFraction rest = ([], rest) := by
    unfold takeFraction
    split
    · exact absurd rfl (hrest '.' rfl).2
    · rfl
  unfold read?
  rw [takeSign_append whole rest hne hwhole]
  dsimp only
  rw [List.takeWhile_append_of_pos hwhole, List.dropWhile_append_of_pos hwhole, hdigits.1, hdigits.2,
    hfraction]
  simp [hne]

/-- Digits with a point before the last of them. -/
theorem read?_fraction (hfraction : ∀ c ∈ fraction, c.isDigit)
    (hrest : ∀ c ∈ rest.head?, c.isDigit = false) :
    read? (whole ++ '.' :: (fraction ++ rest)) =
      (exponent? rest).map fun e => ⟨false, digitsValue (whole ++ fraction), e - fraction.length⟩ := by
  have hdigits : rest.takeWhile Char.isDigit = [] ∧ rest.dropWhile Char.isDigit = rest := by
    cases rest with
    | nil => exact ⟨rfl, rfl⟩
    | cons c rest => simp [hrest c rfl]
  have hpoint : ('.' :: (fraction ++ rest)).takeWhile Char.isDigit = [] ∧
      ('.' :: (fraction ++ rest)).dropWhile Char.isDigit = '.' :: (fraction ++ rest) := ⟨rfl, rfl⟩
  unfold read?
  rw [takeSign_append whole _ hne hwhole]
  dsimp only
  rw [List.takeWhile_append_of_pos hwhole, List.dropWhile_append_of_pos hwhole, hpoint.1, hpoint.2,
    takeFraction, List.takeWhile_append_of_pos hfraction, List.dropWhile_append_of_pos hfraction,
    hdigits.1, hdigits.2]
  simp [hne]

end Unsigned

theorem read?_minus {s : List Char} (h : ∀ c ∈ s.head?, c.isDigit) :
    read? ('-' :: s) = (read? s).map fun d => { d with negative := true } := by
  unfold read?
  rw [takeSign_of_isDigit h, takeSign]
  dsimp only
  split
  · rfl
  · rw [Option.map_map]
    rfl

theorem read?_integerText (digits : Nat) :
    read? (Nat.toDigits 10 digits) = some ⟨false, digits, 0⟩ := by
  have hread := read?_whole (Nat.toDigits 10 digits) [] Nat.toDigits_ne_nil
    (fun _ => isDigit_of_mem_toDigits) fun c hc => by cases hc
  rw [List.append_nil, digitsValue_toDigits] at hread
  exact hread

/-! ### Characters -/

/-- A character that a decimal can be written with. -/
def isNumeral (c : Char) : Bool :=
  c.isDigit || c == '+' || c == '-' || c == '.' || c == 'e' || c == 'E'

theorem isNumeral_of_isDigit {c : Char} (h : c.isDigit) : isNumeral c := by
  simp [isNumeral, h]

theorem isNumeral_of_takeSign {s : List Char} (h : ∀ c ∈ (takeSign s).2, isNumeral c) :
    ∀ c ∈ s, isNumeral c := by
  unfold takeSign at h
  split at h
  · exact List.forall_mem_cons.mpr ⟨by decide, h⟩
  · exact List.forall_mem_cons.mpr ⟨by decide, h⟩
  · exact h

theorem isNumeral_of_exponent? {s : List Char} {e : Int} (h : exponent? s = some e) :
    ∀ c ∈ s, isNumeral c := by
  cases s with
  | nil => intro c hc; cases hc
  | cons c rest =>
    unfold exponent? at h
    dsimp only at h
    split at h
    · rename_i hmark
      simp only [Bool.and_eq_true, Bool.or_eq_true, beq_iff_eq] at hmark
      obtain ⟨⟨hc, -⟩, hdigits⟩ := hmark
      refine List.forall_mem_cons.mpr ⟨?_, isNumeral_of_takeSign fun d hd =>
        isNumeral_of_isDigit (List.all_eq_true.mp hdigits d hd)⟩
      rcases hc with rfl | rfl <;> decide
    · cases h

/-- A text that reads as a decimal is made of digits, signs, a point and the mark of an exponent. -/
theorem isNumeral_of_read? {s : List Char} {d : Decimal} (h : read? s = some d) :
    ∀ c ∈ s, isNumeral c := by
  refine isNumeral_of_takeSign fun c hc => ?_
  unfold read? at h
  dsimp only at h
  generalize (takeSign s).2 = unsigned at h hc
  split at h
  · cases h
  · obtain ⟨e, he, -⟩ := Option.map_eq_some_iff.mp h
    rw [← List.takeWhile_append_dropWhile (p := Char.isDigit) (l := unsigned)] at hc
    rcases List.mem_append.mp hc with hc | hc
    · exact isNumeral_of_isDigit (List.mem_takeWhile_imp hc)
    · generalize unsigned.dropWhile Char.isDigit = afterWhole at he hc
      have hexponent := isNumeral_of_exponent? he
      unfold takeFraction at hexponent
      split at hexponent
      · rename_i rest
        rcases List.mem_cons.mp hc with rfl | hc
        · decide
        · rw [← List.takeWhile_append_dropWhile (p := Char.isDigit) (l := rest)] at hc
          rcases List.mem_append.mp hc with hc | hc
          · exact isNumeral_of_isDigit (List.mem_takeWhile_imp hc)
          · exact hexponent c hc
      · exact hexponent c hc

/-! ### Capitals -/

theorem takeWhile_isDigit_upper (s : List Char) :
    (upper s).takeWhile Char.isDigit = s.takeWhile Char.isDigit := by
  have hsame : Char.isDigit ∘ Char.toUpper = Char.isDigit := funext isDigit_toUpper
  rw [upper, List.takeWhile_map, hsame]
  exact upper_of_isDigit fun c hc => List.mem_takeWhile_imp hc

theorem dropWhile_isDigit_upper (s : List Char) :
    (upper s).dropWhile Char.isDigit = upper (s.dropWhile Char.isDigit) := by
  have hsame : Char.isDigit ∘ Char.toUpper = Char.isDigit := funext isDigit_toUpper
  rw [upper, List.dropWhile_map, hsame]
  rfl

theorem takeSign_upper (s : List Char) :
    takeSign (upper s) = ((takeSign s).1, upper (takeSign s).2) := by
  cases s with
  | nil => rfl
  | cons c s =>
    rw [upper, List.map_cons, ← upper]
    by_cases hminus : c = '-'
    · subst hminus
      rfl
    by_cases hplus : c = '+'
    · subst hplus
      rfl
    have hminus' : c.toUpper ≠ '-' := fun h => hminus ((toUpper_eq_iff rfl rfl).mp h)
    have hplus' : c.toUpper ≠ '+' := fun h => hplus ((toUpper_eq_iff rfl rfl).mp h)
    simp [takeSign, hminus, hplus, hminus', hplus', upper]

theorem takeFraction_upper (s : List Char) :
    takeFraction (upper s) = ((takeFraction s).1, upper (takeFraction s).2) := by
  cases s with
  | nil => rfl
  | cons c s =>
    rw [upper, List.map_cons, ← upper]
    by_cases hpoint : c = '.'
    · subst hpoint
      change ((upper s).takeWhile Char.isDigit, (upper s).dropWhile Char.isDigit) = _
      rw [takeWhile_isDigit_upper, dropWhile_isDigit_upper]
      rfl
    have hpoint' : c.toUpper ≠ '.' := fun h => hpoint ((toUpper_eq_iff rfl rfl).mp h)
    simp [takeFraction, hpoint, hpoint', upper]

theorem exponent?_upper (s : List Char) : exponent? (upper s) = exponent? s := by
  cases s with
  | nil => rfl
  | cons c s =>
    have hmark : (c.toUpper == 'e' || c.toUpper == 'E') = (c == 'e' || c == 'E') := by
      cases hlower : c.isLower with
      | false => rw [toUpper_of_not_isLower hlower]
      | true =>
        have hlow := bounds_of_isLower hlower
        have hval := val_toUpper hlower
        rw [Bool.eq_iff_iff]
        simp only [Bool.or_eq_true, beq_iff_eq]
        constructor <;> rintro (h | h)
        · have hlittle : c.toUpper.val = 101 := congrArg Char.val h
          grind
        · have hcapital : c.toUpper.val = 69 := congrArg Char.val h
          refine .inl (Char.ext ?_)
          change c.val = 101
          grind
        · subst h
          exact .inr rfl
        · subst h
          exact .inr rfl
    rw [upper, List.map_cons, ← upper, exponent?, exponent?, takeSign_upper]
    dsimp only
    generalize (takeSign s).2 = digits
    have hall : (upper digits).all Char.isDigit = digits.all Char.isDigit := by
      simp [upper, Function.comp_def, isDigit_toUpper]
    have hempty : (upper digits).isEmpty = digits.isEmpty := by cases digits <;> rfl
    rw [hmark, hall, hempty]
    split
    · rename_i h
      simp only [Bool.and_eq_true, List.all_eq_true] at h
      rw [upper_of_isDigit h.2]
    · rfl

theorem read?_upper (s : List Char) : read? (upper s) = read? s := by
  unfold read?
  rw [takeSign_upper]
  dsimp only
  rw [takeWhile_isDigit_upper, dropWhile_isDigit_upper, takeFraction_upper]
  dsimp only
  rw [exponent?_upper]

/-! ### Values -/

theorem pow_digitCount_le {n : Nat} (h : n ≠ 0) : 10 ^ (digitCount n - 1) ≤ n := by
  unfold digitCount
  by_contra hless
  rcases Nat.eq_zero_or_pos ((Nat.toDigits 10 n).length - 1) with hzero | hpos
  · rw [hzero] at hless
    omega
  · have hle := (Nat.length_toDigits_le_iff (b := 10) (by decide) hpos).mpr (Nat.lt_of_not_le hless)
    omega

theorem lt_pow_digitCount (n : Nat) : n < 10 ^ digitCount n :=
  (Nat.length_toDigits_le_iff (by decide) Nat.length_toDigits_pos).mp (Nat.le_refl _)

/-- The value of a decimal without its sign. -/
def magnitude (d : Decimal) : ℚ := d.digits * 10 ^ d.exponent

/-- The value as a quotient of natural numbers. -/
theorem div_eq_magnitude (d : Decimal) :
    ((d.digits * 10 ^ d.exponent.toNat : Nat) : ℚ) / (10 ^ (-d.exponent).toNat : Nat) =
      d.magnitude := by
  have hpow : ∀ k : Nat, ((10 ^ k : Nat) : ℚ) = 10 ^ (k : Int) := fun k => by
    rw [zpow_natCast, Nat.cast_pow, Nat.cast_ofNat]
  rw [magnitude, Nat.cast_mul, hpow, hpow, mul_div_assoc, ← zpow_sub₀ (by norm_num)]
  congr 2
  omega

theorem den_pos (k : Nat) : 0 < 10 ^ k := Nat.pow_pos (by decide)

/-- What is settled by the place of the first digit would be rounded to the same number. -/
theorem toDouble_eq (d : Decimal) :
    d.toDouble = Double.ofRatio d.negative (d.digits * 10 ^ d.exponent.toNat)
      (10 ^ (-d.exponent).toNat) := by
  have htiny : 2 * Double.one < 10 ^ 401 := by decide +kernel
  have hhuge : Double.limit ≤ 10 ^ 400 * Double.one := by decide +kernel
  have hbelow := lt_pow_digitCount d.digits
  unfold toDouble
  dsimp only
  split
  · rename_i hsmall
    rw [Double.ofRatio, Double.nearest_eq_zero]
    rcases hsmall with hzero | hleading
    · rw [hzero]
      simp
    · have hexponent : d.exponent.toNat = 0 := by omega
      have hplaces : digitCount d.digits + 401 ≤ (-d.exponent).toNat := by omega
      rw [hexponent]
      calc 2 * (d.digits * 10 ^ 0 * Double.one) = d.digits * (2 * Double.one) := by ring
        _ < 10 ^ digitCount d.digits * 10 ^ 401 := Nat.mul_lt_mul'' hbelow htiny
        _ = 10 ^ (digitCount d.digits + 401) := by rw [Nat.pow_add]
        _ ≤ 10 ^ (-d.exponent).toNat := Nat.pow_le_pow_right (by decide) hplaces
  · rename_i hsmall
    rw [not_or] at hsmall
    have habove := pow_digitCount_le hsmall.1
    split
    · rename_i hleading
      rw [Double.ofRatio, Double.nearest_eq_limit (den_pos _)]
      have hplaces : 400 + (-d.exponent).toNat ≤ digitCount d.digits - 1 + d.exponent.toNat := by omega
      calc Double.limit * 10 ^ (-d.exponent).toNat
          ≤ 10 ^ 400 * Double.one * 10 ^ (-d.exponent).toNat := Nat.mul_le_mul_right _ hhuge
        _ = 10 ^ (400 + (-d.exponent).toNat) * Double.one := by rw [Nat.pow_add, Nat.mul_right_comm]
        _ ≤ 10 ^ (digitCount d.digits - 1 + d.exponent.toNat) * Double.one :=
          Nat.mul_le_mul_right _ (Nat.pow_le_pow_right (by decide) hplaces)
        _ = 10 ^ (digitCount d.digits - 1) * 10 ^ d.exponent.toNat * Double.one := by rw [Nat.pow_add]
        _ ≤ d.digits * 10 ^ d.exponent.toNat * Double.one :=
          Nat.mul_le_mul_right _ (Nat.mul_le_mul_right _ habove)
    · rfl

/-- Decimals of one value round to one number. -/
theorem toDouble_congr {d d' : Decimal} (hnegative : d.negative = d'.negative)
    (h : d.magnitude = d'.magnitude) : d.toDouble = d'.toDouble := by
  rw [toDouble_eq, toDouble_eq, Double.ofRatio, Double.ofRatio, hnegative,
    Double.nearest_congr (den_pos _) (den_pos _)]
  rw [div_eq_magnitude, div_eq_magnitude, h]

end Decimal

namespace Double

variable {s : List Char} {x : Double}

theorem exists_decimal_of_read? (h : read? s = some x) :
    ∃ d, Decimal.read? s = some d ∧ d.toDouble = x ∧ x.isFinite := by
  obtain ⟨hread, hfinite⟩ := Option.filter_eq_some_iff.mp h
  obtain ⟨d, hd, hx⟩ := Option.map_eq_some_iff.mp hread
  exact ⟨d, hd, hx, hfinite⟩

theorem isBinary64_of_read? (h : read? s = some x) : x.IsBinary64 := by
  obtain ⟨d, -, rfl, -⟩ := exists_decimal_of_read? h
  rw [Decimal.toDouble_eq]
  exact isBinary64_ofRatio _ _ _

theorem isNumeral_of_read? (h : read? s = some x) : ∀ c ∈ s, Decimal.isNumeral c := by
  obtain ⟨d, hd, -⟩ := exists_decimal_of_read? h
  exact Decimal.isNumeral_of_read? hd

theorem read?_upper (s : List Char) : read? (upper s) = read? s := by
  rw [read?, Decimal.read?_upper, read?]

/-- Digits are read exactly if they write no more than 2^53. -/
theorem read?_of_isDigit {digits : List Char} (hne : digits ≠ []) (hdigits : ∀ c ∈ digits, c.isDigit)
    (h : digitsValue digits ≤ 2 ^ 53) : read? digits = some ⟨false, digitsValue digits * one⟩ := by
  have hdecimal := Decimal.read?_whole digits [] hne hdigits fun c hc => by cases hc
  rw [List.append_nil] at hdecimal
  have hdouble : Decimal.toDouble ⟨false, digitsValue digits, 0⟩ = ⟨false, digitsValue digits * one⟩ := by
    rw [Decimal.toDouble_eq, ofRatio]
    dsimp only
    rw [Int.toNat_zero, Int.neg_zero, Int.toNat_zero, Nat.pow_zero, Nat.mul_one, nearest_of_le h]
  have hfinite : isFinite ⟨false, digitsValue digits * one⟩ := by
    have hbound : 2 ^ 53 * one < limit := by decide +kernel
    exact decide_eq_true ((Nat.mul_le_mul_right _ h).trans_lt hbound)
  unfold read?
  rw [hdecimal]
  change (some (Decimal.toDouble ⟨false, digitsValue digits, 0⟩)).filter isFinite = _
  rw [hdouble, Option.filter_some, if_pos hfinite]

end Double

end Catalog.Number
