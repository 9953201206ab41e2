import Catalog.Json.Printer
import Catalog.Proofs.Number.WrittenForm

/-! Numbers of documents: the values that they can have, and the texts that read back as them. -/

namespace Catalog.Json.Number

open Catalog.Number Catalog.Text

/-- The number as a binary64 number. -/
def toDouble : Number → Double
  | .integer value => Double.ofInt value
  | .double value => value

/-- The number is one that a document can have. -/
def InRange : Number → Prop
  | .integer value => -2 ^ 63 ≤ value ∧ value < 2 ^ 64
  | .double value => value.IsBinary64 ∧ value.isFinite

/-! ### Numbers that are read -/

theorem isBinary_pow_mul_one (j : Nat) : Double.IsBinary (2 ^ j * Double.one) := by
  obtain ⟨k, hone⟩ := Double.exists_one_eq
  have hbinary := Double.isBinary_mul_pow (m := 1) (j + k) Nat.one_le_two_pow
  rw [Nat.one_mul, Nat.pow_add, ← hone] at hbinary
  exact hbinary

theorem units_ofRatio_word {significand : Nat} (h : significand ≤ 2 ^ 64) (negative : Bool) :
    (Double.ofRatio negative significand 1).isFinite := by
  have hle : Double.nearest significand 1 ≤ 2 ^ 64 * Double.one :=
    Double.nearest_le_of_le Nat.one_pos (isBinary_pow_mul_one 64) (by
      rw [Nat.mul_one]
      exact Nat.mul_le_mul_right _ h)
  have hlimit : 2 ^ 64 * Double.one < Double.limit := by decide +kernel
  exact decide_eq_true (hle.trans_lt hlimit)

theorem accumulate_lt {significand : Nat} (h : significand < 2 ^ 64) (digits : List Char) :
    (accumulate significand digits).1 < 2 ^ 64 := by
  induction digits generalizing significand with
  | nil => exact h
  | cons c rest ih =>
    unfold accumulate
    dsimp only
    split
    · rename_i hnext
      exact ih hnext
    · exact h

theorem scaleDown_inRange (steps : Nat) {x : Double} (h : x.IsBinary64 ∧ x.isFinite) (exponent : Nat) :
    (scaleDown steps x exponent).IsBinary64 ∧ (scaleDown steps x exponent).isFinite := by
  -- A power of ten is at least one, and so a quotient is no larger than what is divided.
  have hdiv : ∀ (x : Double) k, x.IsBinary64 ∧ x.isFinite →
      (x.div (powerOfTen k)).IsBinary64 ∧ (x.div (powerOfTen k)).isFinite := by
    intro x k hx
    have hpower : Double.one ≤ (powerOfTen k).units := by
      have hbinary : Double.IsBinary Double.one := by
        rw [← Nat.one_mul Double.one]
        exact Double.isBinary_mul_one (by decide)
      refine Double.le_nearest_of_le Nat.one_pos hbinary (by decide +kernel) ?_
      rw [Nat.mul_one]
      exact Nat.le_mul_of_pos_left _ (Nat.pow_pos (by decide))
    have hle : (x.div (powerOfTen k)).units ≤ x.units :=
      Double.nearest_le_of_le (Double.unitsInOne_pos.trans_le hpower) hx.1.binary
        (Nat.mul_le_mul_left _ hpower)
    exact ⟨Double.isBinary64_ofRatio _ _ _, decide_eq_true (hle.trans_lt (of_decide_eq_true hx.2))⟩
  induction steps generalizing x exponent with
  | zero => exact h
  | succ steps ih =>
    unfold scaleDown
    split
    · exact hdiv x exponent h
    · split
      · exact h
      · exact ih (hdiv x 308 h) _

theorem scale?_inRange {significand : Nat} (hsignificand : significand < 2 ^ 64) {exponent : Int}
    {x : Double} (h : scale? significand exponent = some x) : x.IsBinary64 ∧ x.isFinite := by
  have hstart : (Double.ofRatio false significand 1).IsBinary64 ∧
      (Double.ofRatio false significand 1).isFinite :=
    ⟨Double.isBinary64_ofRatio _ _ _, units_ofRatio_word hsignificand.le _⟩
  unfold scale? at h
  dsimp only at h
  generalize Double.ofRatio false significand 1 = start at h hstart
  split at h
  · exact Option.some.inj h ▸ scaleDown_inRange _ hstart _
  · split at h
    · exact Option.some.inj h ▸ hstart
    · split at h
      · split at h
        · rename_i hfinite
          obtain rfl := Option.some.inj h
          exact ⟨Double.isBinary64_ofRatio _ _ _, hfinite⟩
        · cases h
      · cases h

theorem double?_inRange {numeral : Numeral} {x : Double} (h : double? numeral = some x) :
    x.IsBinary64 ∧ x.isFinite := by
  unfold double? at h
  dsimp only at h
  have hwhole : (accumulate 0 numeral.whole).1 < 2 ^ 64 := accumulate_lt (by decide) _
  generalize accumulate 0 numeral.whole = whole at h hwhole
  have hsignificand := accumulate_lt hwhole numeral.fraction
  generalize accumulate whole.1 numeral.fraction = significand at h hsignificand
  obtain ⟨y, hy, rfl⟩ := Option.map_eq_some_iff.mp h
  have hrange : y.IsBinary64 ∧ y.isFinite := by
    have hzero : (⟨false, 0⟩ : Double).IsBinary64 ∧ (⟨false, 0⟩ : Double).isFinite :=
      ⟨⟨Nat.dvd_zero _, Nat.zero_le _⟩, by decide +kernel⟩
    split at hy
    · exact scale?_inRange hsignificand hy
    · split at hy
      · exact scale?_inRange hsignificand hy
      · split at hy
        · cases hy
        · exact Option.some.inj hy ▸ hzero
  exact ⟨⟨hrange.1.binary, hrange.1.bounded⟩, hrange.2⟩

/-- Every number that a numeral stands for is in range. -/
theorem inRange_of_ofNumeral? {numeral : Numeral} {n : Number} (h : ofNumeral? numeral = some n) :
    n.InRange := by
  unfold ofNumeral? at h
  dsimp only at h
  generalize digitsValue numeral.whole = whole at h
  split at h
  · rename_i hword
    simp only [Bool.and_eq_true, decide_eq_true_eq] at hword
    have hless : whole < 2 ^ 64 := hword.2
    split at h
    · obtain rfl := Option.some.inj h
      exact ⟨by omega, by omega⟩
    · split at h
      · rename_i hsmall
        have hle : whole ≤ 2 ^ 63 := hsmall.2
        obtain rfl := Option.some.inj h
        exact ⟨by omega, by omega⟩
      · obtain rfl := Option.some.inj h
        exact ⟨Double.isBinary64_ofRatio _ _ _, units_ofRatio_word hless.le _⟩
  · obtain ⟨x, hx, rfl⟩ := Option.map_eq_some_iff.mp h
    exact double?_inRange hx

/-! ### Texts -/

theorem finite_toDouble {n : Number} (h : n.InRange) : n.toDouble.IsBinary64 ∧ n.toDouble.isFinite := by
  cases n with
  | integer value => exact ⟨Double.isBinary64_ofRatio _ _ _, units_ofRatio_word (by unfold InRange at h; omega) _⟩
  | double value => exact h

/-- The text of a number reads back as it. -/
theorem read?_text {n : Number} (h : n.InRange) : Double.read? n.text = some n.toDouble := by
  have hfinite := finite_toDouble h
  cases n with
  | integer value =>
    have hdigits : ∀ c ∈ (Nat.toDigits 10 value.natAbs).head?, c.isDigit := fun c hc =>
      isDigit_of_mem_toDigits (List.mem_of_head? hc)
    have hread : Decimal.read? (integerText value) = some ⟨decide (value < 0), value.natAbs, 0⟩ := by
      unfold integerText
      split
      · rename_i hnegative
        rw [Decimal.read?_minus hdigits, Decimal.read?_integerText, decide_eq_true hnegative]
        rfl
      · rename_i hpositive
        rw [Decimal.read?_integerText, decide_eq_false hpositive]
    have hdouble : Decimal.toDouble ⟨decide (value < 0), value.natAbs, 0⟩ = Double.ofInt value := by
      rw [Decimal.toDouble_eq]
      simp [Double.ofInt]
    unfold Double.read?
    rw [text, hread, Option.map_some, hdouble, Option.filter_some]
    exact if_pos hfinite.2
  | double value => exact WrittenForm.read?_write plausible_inJson h.1 h.2

end Catalog.Json.Number
