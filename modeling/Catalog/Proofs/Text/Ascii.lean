import Catalog.Text.Ascii
import Mathlib.Algebra.Ring.Nat
import Mathlib.Tactic.ByContra

/-! Digits and letters of ASCII: the numbers that digits write, and what becomes of characters in
capitals. -/

namespace Catalog.Text

theorem digitsValue_eq_ofDigitChars (s : List Char) : digitsValue s = Nat.ofDigitChars 10 s 0 :=
  Nat.ofDigitChars_eq_foldl.symm

@[simp] theorem digitsValue_toDigits (n : Nat) : digitsValue (Nat.toDigits 10 n) = n := by
  rw [digitsValue_eq_ofDigitChars, Nat.ofDigitChars_ten_toDigits]

theorem digitsValue_append (s t : List Char) :
    digitsValue (s ++ t) = 10 ^ t.length * digitsValue s + digitsValue t := by
  simp only [digitsValue_eq_ofDigitChars, Nat.ofDigitChars_append]
  exact Nat.ofDigitChars_eq_ofDigitChars_zero

@[simp] theorem digitsValue_replicate_zero (n : Nat) : digitsValue (List.replicate n '0') = 0 := by
  rw [digitsValue_eq_ofDigitChars, Nat.ofDigitChars_replicate_zero, Nat.mul_zero]

theorem isDigit_of_mem_toDigits {n : Nat} {c : Char} (h : c ∈ Nat.toDigits 10 n) : c.isDigit :=
  Nat.isDigit_of_mem_toDigits (by decide) (by decide) h

theorem natural?_toDigits (n : Nat) : natural? (Nat.toDigits 10 n) = some n := by
  have hdigits : ∀ c ∈ Nat.toDigits 10 n, c.isDigit := fun _ => isDigit_of_mem_toDigits
  obtain ⟨c, rest, hcons⟩ := List.exists_cons_of_ne_nil (Nat.toDigits_ne_nil (b := 10) (n := n))
  have hnoSign : c ≠ '+' := by
    rintro rfl
    exact absurd (hdigits '+' (hcons ▸ List.mem_cons_self)) (by decide)
  have hvalue := digitsValue_toDigits n
  rw [hcons] at hdigits hvalue ⊢
  rw [natural?.eq_def]
  split
  · rename_i heq
    exact absurd (List.cons.inj heq).1 hnoSign
  · rw [if_neg (by simpa using hdigits), hvalue]

theorem word64?_toDigits_eq_some_iff {m n : Nat} :
    word64? (Nat.toDigits 10 m) = some n ↔ m = n ∧ m < Nat.pow 2 64 := by
  rw [word64?, natural?_toDigits, Option.filter_some]
  simp [and_comm]

theorem isLower_iff {c : Char} : c.isLower ↔ 97 ≤ c.val ∧ c.val ≤ 122 := by
  change (decide (97 ≤ c.val) && decide (c.val ≤ 122)) = true ↔ _
  simp

theorem bounds_of_isLower {c : Char} (h : c.isLower) : 97 ≤ c.val ∧ c.val ≤ 122 := isLower_iff.mp h

theorem bounds_of_isDigit {c : Char} (h : c.isDigit) : 48 ≤ c.val ∧ c.val ≤ 57 := by
  simpa [Char.isDigit] using h

theorem val_toUpper {c : Char} (h : c.isLower) : c.toUpper.val = c.val - 32 := by
  have hletter : 'a'.val ≤ c.val ∧ c.val ≤ 'z'.val := bounds_of_isLower h
  unfold Char.toUpper
  rw [dif_pos hletter]
  change c.val + ('A'.val - 'a'.val) = c.val - 32
  grind

theorem toUpper_of_not_isLower {c : Char} (h : c.isLower = false) : c.toUpper = c := by
  unfold Char.toUpper
  rw [dif_neg]
  intro hletter
  rw [isLower_iff.mpr hletter] at h
  cases h

theorem toUpper_of_isDigit {c : Char} (h : c.isDigit) : c.toUpper = c := by
  refine toUpper_of_not_isLower ?_
  have hdigit := bounds_of_isDigit h
  by_contra hlower
  have hlow := bounds_of_isLower (by simpa using hlower)
  grind

theorem isDigit_toUpper (c : Char) : c.toUpper.isDigit = c.isDigit := by
  cases hlower : c.isLower with
  | false => rw [toUpper_of_not_isLower hlower]
  | true =>
    have hlow := bounds_of_isLower hlower
    have hval := val_toUpper hlower
    rw [Bool.eq_iff_iff]
    constructor
    · intro h
      have hdigit := bounds_of_isDigit h
      grind
    · intro h
      have hdigit := bounds_of_isDigit h
      grind

theorem upper_of_isDigit {s : List Char} (h : ∀ c ∈ s, c.isDigit) : upper s = s :=
  (List.map_congr_left fun c hc => toUpper_of_isDigit (h c hc)).trans (List.map_id s)

/-- A character that is no letter comes from no other one. -/
theorem toUpper_eq_iff {c d : Char} (hlower : d.isLower = false) (hupper : d.isUpper = false) :
    c.toUpper = d ↔ c = d := by
  cases hc : c.isLower with
  | false => rw [toUpper_of_not_isLower hc]
  | true =>
    have hlow := bounds_of_isLower hc
    have hval := val_toUpper hc
    constructor
    · rintro rfl
      have hcapital : c.toUpper.isUpper := by
        have hrange : 65 ≤ c.toUpper.val ∧ c.toUpper.val ≤ 90 := by grind
        exact decide_eq_true hrange
      rw [hcapital] at hupper
      cases hupper
    · rintro rfl
      rw [hc] at hlower
      cases hlower

theorem upper_eq_iff {s t : List Char} (h : ∀ d ∈ t, d.isLower = false ∧ d.isUpper = false) :
    upper s = t ↔ s = t := by
  induction t generalizing s with
  | nil => simp [upper]
  | cons d t ih =>
    obtain ⟨hlower, hupper⟩ := h d List.mem_cons_self
    have hrest := fun s => ih (s := s) fun e he => h e (List.mem_cons_of_mem _ he)
    cases s with
    | nil => simp [upper]
    | cons c s =>
      rw [upper, List.map_cons, List.cons.injEq, List.cons.injEq, toUpper_eq_iff hlower hupper, ← upper, hrest]

theorem toUpper_toLower (c : Char) : c.toLower.toUpper = c.toUpper := by
  unfold Char.toLower
  split
  · rename_i hcapital
    have hlow : 65 ≤ c.val := hcapital.1
    have hhigh : c.val ≤ 90 := hcapital.2
    have hnot : c.isLower = false := by
      by_contra hlower
      have hbounds := bounds_of_isLower (by simpa using hlower)
      grind
    rw [toUpper_of_not_isLower hnot]
    refine Char.ext ?_
    rw [val_toUpper]
    · change c.val + 32 - 32 = c.val
      grind
    · refine isLower_iff.mpr ?_
      change 97 ≤ c.val + 32 ∧ c.val + 32 ≤ 122
      grind
  · rfl

/-- Texts that agree up to case agree in capitals. -/
theorem upper_of_sameLetters {s t : List Char} (h : sameLetters s t) : upper s = upper t := by
  have hupper : ∀ s, upper (lower s) = upper s := fun s => by
    simp only [upper, lower, List.map_map, Function.comp_def, toUpper_toLower]
  rw [sameLetters, beq_iff_eq] at h
  rw [← hupper s, h, hupper]

/-- Texts that agree up to case hold the same characters that are no letters. -/
theorem mem_of_sameLetters {s t : List Char} (h : sameLetters s t) {d : Char} (hlower : d.isLower = false)
    (hupper : d.isUpper = false) (hd : d ∈ s) : d ∈ t := by
  have hmem : d ∈ upper t := by
    rw [← upper_of_sameLetters h]
    exact List.mem_map.mpr ⟨d, hd, (toUpper_eq_iff hlower hupper).mpr rfl⟩
  obtain ⟨c, hc, hcd⟩ := List.mem_map.mp hmem
  rwa [← (toUpper_eq_iff hlower hupper).mp hcd]

end Catalog.Text
