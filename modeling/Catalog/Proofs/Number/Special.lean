import Catalog.Proofs.Number.Decimal

/-! Everything that can be read as binary64: decimals, and words for infinity and NaN. The finite numbers
among them are those of the decimals in range, and no finite number is written with other characters. -/

namespace Catalog.Number

open Catalog.Text

/-- What a text is read as: a number, infinite ones included, or NaN. -/
inductive Extended where
  | number (value : Double)
  | nan
deriving DecidableEq, Repr

namespace Extended

def infiniteWords : List (List Char) := ["inf".toList, "infinity".toList]

/-- Reads a decimal, or a word for infinity or NaN, after a sign and in any ASCII case. -/
def read? (s : List Char) : Option Extended :=
  let word := (Decimal.takeSign s).2
  if infiniteWords.any fun other => sameLetters word other then
    some (.number ⟨(Decimal.takeSign s).1, Double.limit⟩)
  else if sameLetters word "nan".toList then some .nan
  else (Decimal.read? s).map fun d => .number d.toDouble

/-- The number, if it is finite. -/
def finite? : Extended → Option Double
  | number value => if value.isFinite then some value else none
  | nan => none

theorem mem_of_mem_takeSign {s : List Char} {c : Char} (h : c ∈ (Decimal.takeSign s).2) : c ∈ s := by
  unfold Decimal.takeSign at h
  split at h
  · exact List.mem_cons_of_mem _ h
  · exact List.mem_cons_of_mem _ h
  · exact h

/-- Each of the words holds a letter that no decimal does. -/
theorem read?_eq_none_of_word {s word : List Char} (hword : word ∈ "nan".toList :: infiniteWords)
    (h : sameLetters (Decimal.takeSign s).2 word) : Decimal.read? s = none := by
  have hletter : ∀ word ∈ "nan".toList :: infiniteWords, 'N' ∈ upper word := by decide
  have hmem := hletter word hword
  rw [← upper_of_sameLetters h] at hmem
  obtain ⟨c, hc, hcapital⟩ := List.mem_map.mp hmem
  by_contra hread
  obtain ⟨d, hd⟩ := Option.ne_none_iff_exists'.mp hread
  have hnumeral := Decimal.isNumeral_of_read? hd c (mem_of_mem_takeSign hc)
  simp only [Decimal.isNumeral, Bool.or_eq_true, beq_iff_eq] at hnumeral
  rcases hnumeral with ((((hdigit | rfl) | rfl) | rfl) | rfl) | rfl
  · rw [toUpper_of_isDigit hdigit] at hcapital
    subst hcapital
    cases hdigit
  all_goals exact absurd hcapital (by decide)

/-- Reading words as well adds no finite number. -/
theorem bind_read?_finite? (s : List Char) : (read? s).bind finite? = Double.read? s := by
  have hnone (h : Decimal.read? s = none) : Double.read? s = none := by
    unfold Double.read?
    rw [h]
    rfl
  unfold read?
  dsimp only
  split
  · rename_i hword
    obtain ⟨word, hmem, hsame⟩ := List.any_eq_true.mp hword
    rw [hnone (read?_eq_none_of_word (List.mem_cons_of_mem _ hmem) hsame), Option.bind_some, finite?,
      if_neg (Double.not_isFinite_limit _)]
  · split
    · rename_i hword
      rw [hnone (read?_eq_none_of_word List.mem_cons_self hword), Option.bind_some, finite?]
    · unfold Double.read?
      cases Decimal.read? s with
      | none => rfl
      | some d =>
        rw [Option.map_some, Option.map_some, Option.bind_some, Option.filter_some, finite?]

end Extended

/-- The finite number that a text writes. -/
def finiteNumber? (s : List Char) : Option Double := (Extended.read? s).bind Extended.finite?

/-- The finite number that a text writes with nothing but digits, signs, a point and the mark of an
exponent. -/
def plainNumber? (s : List Char) : Option Double :=
  (finiteNumber? s).filter fun _ => s.all Decimal.isNumeral

theorem finiteNumber?_eq (s : List Char) : finiteNumber? s = Double.read? s := Extended.bind_read?_finite? s

/-- Finite numbers are written with no other characters. -/
theorem plainNumber?_eq (s : List Char) : plainNumber? s = finiteNumber? s := by
  rw [plainNumber?, finiteNumber?_eq]
  cases h : Double.read? s with
  | none => rfl
  | some x => rw [Option.filter_some, if_pos (List.all_eq_true.mpr (Double.isNumeral_of_read? h))]

end Catalog.Number
