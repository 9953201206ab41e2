import Catalog.Number.Double
import Mathlib.Algebra.Order.Field.Rat
import Mathlib.Data.Nat.Log
import Mathlib.Tactic.GCongr
import Mathlib.Tactic.Linarith
import Mathlib.Tactic.Ring

/-! Rounding to binary64. The magnitudes with 53 binary digits are the fixed points of rounding, every
result is one of them, and a quotient rounds to each that it is no further from than halfway to a
neighbour. -/

namespace Catalog.Number.Double

/-! ### Spacing -/

/-- The place of the last binary digit that is kept. -/
theorem exists_spacing (units : Nat) :
    ∃ k, spacing units = 2 ^ k ∧ (k = 0 ∨ 2 ^ (k + 52) ≤ units) ∧ units < 2 ^ (k + 53) := by
  refine ⟨units.log2 - 52, rfl, ?_, ?_⟩
  · by_cases h : units.log2 ≤ 52
    · exact .inl (by omega)
    · refine .inr ?_
      have hne : units ≠ 0 := by
        rintro rfl
        exact h (by decide)
      calc 2 ^ (units.log2 - 52 + 52) = 2 ^ units.log2 := by congr 1; omega
        _ ≤ units := Nat.log2_self_le hne
  · calc units < 2 ^ (units.log2 + 1) := Nat.lt_log2_self
      _ ≤ 2 ^ (units.log2 - 52 + 53) := Nat.pow_le_pow_right (by decide) (by omega)

theorem spacing_eq {units k : Nat} (hlow : k = 0 ∨ 2 ^ (k + 52) ≤ units)
    (hhigh : units < 2 ^ (k + 53)) : spacing units = 2 ^ k := by
  have hk : units.log2 - 52 = k := by
    by_cases hne : units = 0
    · subst hne
      have : k = 0 := hlow.elim id fun h => absurd (Nat.pow_pos (by decide)) (Nat.not_lt.mpr h)
      subst this
      decide
    · have hless := (Nat.log2_lt hne).mpr hhigh
      rcases hlow with rfl | hlow
      · omega
      · have hmore := (Nat.le_log2 hne).mpr hlow
        omega
  rw [spacing, hk]
  rfl

theorem spacing_pos (units : Nat) : 0 < spacing units := Nat.pow_pos (by decide)

theorem unitsInOne_pos : 0 < one := by decide +kernel

theorem exists_one_eq : ∃ k, one = 2 ^ k := ⟨1074, by decide +kernel⟩

theorem limit_eq : limit = 2 ^ 2098 := by decide +kernel

theorem limit_le_pow {k : Nat} (h : 2098 ≤ k) : limit ≤ 2 ^ k := by
  rw [limit_eq]
  gcongr
  decide

theorem pow_le_limit {k : Nat} (h : k ≤ 2098) : 2 ^ k ≤ limit := by
  rw [limit_eq]
  gcongr
  decide

/-- The magnitude has no more binary digits than are kept. -/
def IsBinary (units : Nat) : Prop := spacing units ∣ units

instance instDecidableIsBinary (units : Nat) : Decidable (IsBinary units) :=
  inferInstanceAs (Decidable (_ ∣ _))

theorem isBinary_mul_pow {m : Nat} (k : Nat) (h : m ≤ 2 ^ 53) : IsBinary (m * 2 ^ k) := by
  obtain ⟨j, hspacing, hlow, hhigh⟩ := exists_spacing (m * 2 ^ k)
  rw [IsBinary, hspacing]
  rcases hlow with rfl | hlow
  · exact Nat.one_dvd _
  rcases Nat.lt_or_ge k j with hlt | hge
  · -- Then the product is as large as it can be, and so a power of two.
    have hbound : 2 ^ (j + 52) ≤ 2 ^ (53 + k) :=
      calc 2 ^ (j + 52) ≤ m * 2 ^ k := hlow
        _ ≤ 2 ^ 53 * 2 ^ k := Nat.mul_le_mul_right _ h
        _ = 2 ^ (53 + k) := (Nat.pow_add 2 53 k).symm
    have hj : j = k + 1 := by
      have := (Nat.pow_le_pow_iff_right (by decide : 1 < 2)).mp hbound
      omega
    subst hj
    have hm : m = 2 ^ 53 := by
      refine Nat.le_antisymm h (Nat.le_of_mul_le_mul_right (c := 2 ^ k) ?_ (Nat.two_pow_pos k))
      calc 2 ^ 53 * 2 ^ k = 2 ^ (k + 1 + 52) := by rw [← Nat.pow_add]; congr 1; omega
        _ ≤ m * 2 ^ k := hlow
    subst hm
    exact ⟨2 ^ 52, by ring⟩
  · exact (Nat.pow_dvd_pow 2 hge).mul_left m

/-- Whole numbers up to 2^53 are binary64 numbers. -/
theorem isBinary_mul_one {n : Nat} (h : n ≤ 2 ^ 53) : IsBinary (n * one) := by
  obtain ⟨k, hone⟩ := exists_one_eq
  rw [hone]
  exact isBinary_mul_pow k h

theorem isBinary_limit : IsBinary limit := by
  have h := isBinary_mul_pow 2098 (Nat.one_le_two_pow : 1 ≤ 2 ^ 53)
  rwa [Nat.one_mul, ← limit_eq] at h

/-- The digits of a binary magnitude and the place of the last one. -/
theorem IsBinary.exists_digits {units : Nat} (h : IsBinary units) :
    ∃ m k, units = m * 2 ^ k ∧ spacing units = 2 ^ k ∧ m < 2 ^ 53 ∧ (k = 0 ∨ 2 ^ 52 ≤ m) := by
  obtain ⟨k, hspacing, hlow, hhigh⟩ := exists_spacing units
  obtain ⟨m, hm⟩ := h
  rw [hspacing, Nat.mul_comm] at hm
  have hpos : 0 < 2 ^ k := Nat.pow_pos (by decide)
  refine ⟨m, k, hm, hspacing, ?_, hlow.imp_right fun hlow => ?_⟩
  · refine Nat.lt_of_mul_lt_mul_right (a := 2 ^ k) ?_
    calc m * 2 ^ k = units := hm.symm
      _ < 2 ^ (k + 53) := hhigh
      _ = 2 ^ 53 * 2 ^ k := by rw [← Nat.pow_add, Nat.add_comm]
  · refine Nat.le_of_mul_le_mul_right (c := 2 ^ k) ?_ hpos
    calc 2 ^ 52 * 2 ^ k = 2 ^ (k + 52) := by rw [← Nat.pow_add, Nat.add_comm]
      _ ≤ units := hlow
      _ = m * 2 ^ k := hm

theorem IsBinary.mul_pow {units : Nat} (h : IsBinary units) (k : Nat) : IsBinary (units * 2 ^ k) := by
  obtain ⟨m, j, rfl, -, hm, -⟩ := h.exists_digits
  rw [Nat.mul_assoc, ← Nat.pow_add]
  exact isBinary_mul_pow (j + k) hm.le

/-! ### Rounded quotients -/

theorem roundQuotient_le (num den : Nat) : roundQuotient num den ≤ num / den + 1 := by
  unfold roundQuotient
  dsimp only
  split
  · omega
  · split <;> omega

theorem div_le_roundQuotient (num den : Nat) : num / den ≤ roundQuotient num den := by
  unfold roundQuotient
  dsimp only
  split
  · omega
  · split <;> omega

/-- A quotient no further from a natural number than one half rounds to it, at one half if it is even. -/
theorem roundQuotient_eq {num den m : Nat} (hden : 0 < den) (hlow : 2 * (m * den) ≤ 2 * num + den)
    (hhigh : 2 * num ≤ 2 * (m * den) + den)
    (hodd : m % 2 = 1 → 2 * (m * den) < 2 * num + den ∧ 2 * num < 2 * (m * den) + den) :
    roundQuotient num den = m := by
  have hsplit : den * (num / den) + num % den = num := Nat.div_add_mod num den
  have hrest : num % den < den := Nat.mod_lt _ hden
  have hle : num / den ≤ m := by
    by_contra hgt
    have hmore : den * (m + 1) ≤ den * (num / den) := Nat.mul_le_mul_left _ (by omega)
    have hexpand : den * (m + 1) = m * den + den := by ring
    omega
  have hge : m ≤ num / den + 1 := by
    by_contra hlt
    have hmore : den * (num / den + 2) ≤ den * m := Nat.mul_le_mul_left _ (by omega)
    have hexpand : den * (num / den + 2) = den * (num / den) + 2 * den := by ring
    have hcomm : den * m = m * den := Nat.mul_comm _ _
    omega
  unfold roundQuotient
  dsimp only
  rcases Nat.lt_or_ge (num / den) m with hlt | hge'
  · have hm : m = num / den + 1 := by omega
    have hproduct : m * den = den * (num / den) + den := by rw [hm]; ring
    rw [if_neg (by omega)]
    split
    · exact hm.symm
    · have heven : m % 2 ≠ 1 := fun h => by
        have := hodd h
        omega
      omega
  · have hm : m = num / den := by omega
    have hproduct : m * den = den * (num / den) := by rw [hm]; ring
    split
    · exact hm.symm
    · rw [if_neg (by omega)]
      have heven : m % 2 ≠ 1 := fun h => by
        have := hodd h
        omega
      omega

/-! ### Nearest magnitudes -/

section Nearest

variable {num den num' den' units : Nat}

theorem nearest_le_limit (num den : Nat) : nearest num den ≤ limit := Nat.min_le_right _ _

theorem isBinary_nearest (num den : Nat) : IsBinary (nearest num den) := by
  obtain ⟨k, hspacing, -, hhigh⟩ := exists_spacing (num * one / den)
  have hround : roundQuotient (num * one) (den * 2 ^ k) ≤ 2 ^ 53 := by
    refine (roundQuotient_le _ _).trans ?_
    have hpos : 0 < 2 ^ k := Nat.pow_pos (by decide)
    have hdiv : num * one / (den * 2 ^ k) < 2 ^ 53 := by
      rw [← Nat.div_div_eq_div_mul, Nat.div_lt_iff_lt_mul hpos, ← Nat.pow_add, Nat.add_comm]
      exact hhigh
    omega
  unfold nearest
  dsimp only
  rw [hspacing]
  rcases Nat.le_total (roundQuotient (num * one) (den * 2 ^ k) * 2 ^ k) limit with h | h
  · rw [Nat.min_eq_left h]
    exact isBinary_mul_pow k hround
  · rw [Nat.min_eq_right h]
    exact isBinary_limit

/-- Rounding is settled by the digits that are kept. -/
theorem nearest_eq {m k : Nat} (hden : 0 < den) (hk : spacing (num * one / den) = 2 ^ k)
    (hlimit : m * 2 ^ k ≤ limit) (hlow : 2 * (m * (den * 2 ^ k)) ≤ 2 * (num * one) + den * 2 ^ k)
    (hhigh : 2 * (num * one) ≤ 2 * (m * (den * 2 ^ k)) + den * 2 ^ k)
    (hodd : m % 2 = 1 → 2 * (m * (den * 2 ^ k)) < 2 * (num * one) + den * 2 ^ k ∧
      2 * (num * one) < 2 * (m * (den * 2 ^ k)) + den * 2 ^ k) :
    nearest num den = m * 2 ^ k := by
  have hpos : 0 < den * 2 ^ k := Nat.mul_pos hden (Nat.pow_pos (by decide))
  unfold nearest
  dsimp only
  rw [hk, roundQuotient_eq hpos hlow hhigh hodd, Nat.min_eq_left hlimit]

/-- A quotient no further from a binary magnitude than half its spacing rounds to it. This needs the
quotient to have the same spacing. -/
theorem nearest_eq_of_near {m k : Nat} (hden : 0 < den) (hm : m < 2 ^ 53)
    (hsmall : k = 0 ∨ 2 ^ 52 < m ∨ 2 ^ 52 = m ∧ m * (den * 2 ^ k) ≤ num * one)
    (hlimit : m * 2 ^ k ≤ limit) (hlow : 2 * (m * (den * 2 ^ k)) ≤ 2 * (num * one) + den * 2 ^ k)
    (hhigh : 2 * (num * one) ≤ 2 * (m * (den * 2 ^ k)) + den * 2 ^ k)
    (hodd : m % 2 = 1 → 2 * (m * (den * 2 ^ k)) < 2 * (num * one) + den * 2 ^ k ∧
      2 * (num * one) < 2 * (m * (den * 2 ^ k)) + den * 2 ^ k) :
    nearest num den = m * 2 ^ k := by
  have hpos : 0 < den * 2 ^ k := Nat.mul_pos hden (Nat.pow_pos (by decide))
  refine nearest_eq hden (spacing_eq ?_ ?_) hlimit hlow hhigh hodd
  · refine hsmall.imp_right fun h => ?_
    rw [Nat.le_div_iff_mul_le hden]
    have hpow : 2 ^ (k + 52) * den = 2 ^ 52 * (den * 2 ^ k) := by ring
    rw [hpow]
    rcases h with h | ⟨hm, h⟩
    · have hmore : (2 ^ 52 + 1) * (den * 2 ^ k) ≤ m * (den * 2 ^ k) := Nat.mul_le_mul_right _ h
      rw [Nat.add_mul] at hmore
      omega
    · rwa [hm]
  · rw [Nat.div_lt_iff_lt_mul hden]
    have hpow : 2 ^ (k + 53) * den = 2 ^ 53 * (den * 2 ^ k) := by ring
    have hmore : (m + 1) * (den * 2 ^ k) ≤ 2 ^ 53 * (den * 2 ^ k) := Nat.mul_le_mul_right _ hm
    rw [Nat.add_mul] at hmore
    rw [hpow]
    omega

/-- Below a power of two the spacing is half as large. -/
theorem nearest_eq_of_near_below {k : Nat} (hden : 0 < den) (hlimit : 2 ^ 52 * 2 ^ (k + 1) ≤ limit)
    (hlow : 4 * (2 ^ 52 * (den * 2 ^ (k + 1))) ≤ 4 * (num * one) + den * 2 ^ (k + 1))
    (hhigh : num * one < 2 ^ 52 * (den * 2 ^ (k + 1))) :
    nearest num den = 2 ^ 52 * 2 ^ (k + 1) := by
  have hpos : 0 < den * 2 ^ k := Nat.mul_pos hden (Nat.pow_pos (by decide))
  have hdouble : den * 2 ^ (k + 1) = 2 * (den * 2 ^ k) := by ring
  have hunits : 2 ^ 52 * 2 ^ (k + 1) = 2 ^ 53 * 2 ^ k := by ring
  rw [hdouble] at hlow hhigh
  rw [hunits] at hlimit ⊢
  refine nearest_eq hden (spacing_eq (.inr ?_) ?_) hlimit ?_ ?_ fun h => absurd h (by decide)
  · rw [Nat.le_div_iff_mul_le hden]
    have hpow : 2 ^ (k + 52) * den = 2 ^ 52 * (den * 2 ^ k) := by ring
    rw [hpow]
    omega
  · rw [Nat.div_lt_iff_lt_mul hden]
    have hpow : 2 ^ (k + 53) * den = 2 ^ 53 * (den * 2 ^ k) := by ring
    rw [hpow]
    omega
  · omega
  · omega

/-- What is a binary magnitude already is not rounded. -/
theorem nearest_eq_of_exact (hden : 0 < den) (hbinary : IsBinary units) (hlimit : units ≤ limit)
    (h : num * one = units * den) : nearest num den = units := by
  obtain ⟨m, k, hm, -, hlt, hsmall⟩ := hbinary.exists_digits
  have hvalue : num * one = m * (den * 2 ^ k) := by rw [h, hm]; ring
  have hpos : 0 < den * 2 ^ k := Nat.mul_pos hden (Nat.pow_pos (by decide))
  rw [hm] at hlimit ⊢
  refine nearest_eq_of_near hden hlt ?_ hlimit (by omega) (by omega) fun _ => by omega
  exact hsmall.imp_right fun h =>
    (Nat.lt_or_eq_of_le h).imp_right fun h => ⟨h, Nat.le_of_eq hvalue.symm⟩

theorem roundQuotient_mul_right {den : Nat} (hden : 0 < den) (m : Nat) :
    roundQuotient (m * den) den = m :=
  roundQuotient_eq hden (by omega) (by omega) fun _ => by omega

/-- A natural number rounds to a natural number. -/
theorem one_dvd_nearest (n : Nat) : one ∣ nearest n 1 := by
  obtain ⟨k, hspacing, -, -⟩ := exists_spacing (n * one / 1)
  have hround : one ∣ roundQuotient (n * one) (1 * 2 ^ k) * 2 ^ k := by
    obtain ⟨j, hone⟩ := exists_one_eq
    rcases Nat.le_total k j with hk | hk
    · obtain ⟨q, hq⟩ : 2 ^ k ∣ one := hone ▸ Nat.pow_dvd_pow 2 hk
      have hexact : n * one = n * q * (1 * 2 ^ k) := by rw [hq]; ring
      rw [hexact, roundQuotient_mul_right (by simp)]
      exact ⟨n, by rw [hq]; ring⟩
    · have hdvd : one ∣ 2 ^ k := hone ▸ Nat.pow_dvd_pow 2 hk
      exact hdvd.mul_left _
  have hlimit : one ∣ limit := by decide +kernel
  unfold nearest
  dsimp only
  rw [hspacing]
  rcases Nat.le_total (roundQuotient (n * one) (1 * 2 ^ k) * 2 ^ k) limit with h | h
  · rw [Nat.min_eq_left h]
    exact hround
  · rw [Nat.min_eq_right h]
    exact hlimit

/-- A natural number of no more binary digits than are kept is not rounded. -/
theorem nearest_of_le {n : Nat} (h : n ≤ 2 ^ 53) : nearest n 1 = n * one := by
  refine nearest_eq_of_exact Nat.one_pos ?_ ?_ (Nat.mul_one _).symm
  · obtain ⟨k, hone⟩ := exists_one_eq
    exact hone ▸ isBinary_mul_pow k h
  · have hbound : 2 ^ 53 * one ≤ limit := by decide +kernel
    exact (Nat.mul_le_mul_right _ h).trans hbound

theorem roundQuotient_mul_left {c : Nat} (hc : 0 < c) (num den : Nat) :
    roundQuotient (c * num) (c * den) = roundQuotient num den := by
  unfold roundQuotient
  simp only [Nat.mul_div_mul_left _ _ hc, Nat.mul_mod_mul_left]
  have hscale : ∀ x y, 2 * (c * x) < c * y ↔ 2 * x < y := fun x y => by
    rw [← Nat.mul_assoc, Nat.mul_comm 2, Nat.mul_assoc, Nat.mul_lt_mul_left hc]
  have hscale' : ∀ x y, c * y < 2 * (c * x) ↔ y < 2 * x := fun x y => by
    rw [← Nat.mul_assoc, Nat.mul_comm 2, Nat.mul_assoc, Nat.mul_lt_mul_left hc]
  simp only [hscale, hscale']

theorem nearest_mul_left {c : Nat} (hc : 0 < c) (num den : Nat) :
    nearest (c * num) (c * den) = nearest num den := by
  unfold nearest
  dsimp only
  rw [Nat.mul_assoc, Nat.mul_div_mul_left _ _ hc, Nat.mul_assoc, roundQuotient_mul_left hc]

/-- Rounding depends on nothing but the quotient. -/
theorem nearest_congr (hden : 0 < den) (hden' : 0 < den')
    (h : (num : ℚ) / den = (num' : ℚ) / den') : nearest num den = nearest num' den' := by
  have hcross : num * den' = num' * den := by
    have hq : (den : ℚ) ≠ 0 := by exact_mod_cast hden.ne'
    have hq' : (den' : ℚ) ≠ 0 := by exact_mod_cast hden'.ne'
    rw [div_eq_div_iff hq hq'] at h
    exact_mod_cast h
  calc nearest num den = nearest (den' * num) (den' * den) := (nearest_mul_left hden' _ _).symm
    _ = nearest (den * num') (den * den') := by
      rw [Nat.mul_comm den' num, hcross, Nat.mul_comm num' den, Nat.mul_comm den' den]
    _ = nearest num' den' := nearest_mul_left hden _ _

theorem spacing_dvd_spacing {a b : Nat} (h : a ≤ b) : spacing a ∣ spacing b := by
  obtain ⟨j, hj, hjlow, -⟩ := exists_spacing a
  obtain ⟨k, hk, -, hkhigh⟩ := exists_spacing b
  rw [hj, hk]
  refine Nat.pow_dvd_pow 2 ?_
  rcases hjlow with rfl | hjlow
  · exact Nat.zero_le k
  · have hless := (Nat.pow_lt_pow_iff_right (by decide)).mp ((hjlow.trans h).trans_lt hkhigh)
    omega

theorem roundQuotient_le_of_le {m : Nat} (hden : 0 < den) (h : num ≤ m * den) :
    roundQuotient num den ≤ m := by
  have hle : num / den ≤ m := Nat.div_le_of_le_mul (Nat.mul_comm m den ▸ h)
  have hsplit := Nat.div_add_mod num den
  have hsmall : num / den = m → num % den = 0 := by
    intro heq
    rw [heq, Nat.mul_comm] at hsplit
    omega
  unfold roundQuotient
  dsimp only
  split
  · exact hle
  · rename_i hhalf
    have hless : num / den < m := by
      refine Nat.lt_of_le_of_ne hle fun heq => hhalf ?_
      rw [hsmall heq]
      exact hden
    split <;> omega

/-- Rounding does not lead past a binary magnitude. -/
theorem nearest_le_of_le (hden : 0 < den) (hbinary : IsBinary units) (h : num * one ≤ units * den) :
    nearest num den ≤ units := by
  have hfloor : num * one / den ≤ units := by
    rw [Nat.mul_comm units] at h
    exact Nat.div_le_of_le_mul h
  obtain ⟨m, hm⟩ := (spacing_dvd_spacing hfloor).trans hbinary
  have hpos := spacing_pos (num * one / den)
  unfold nearest
  dsimp only
  generalize spacing (num * one / den) = step at hm hpos ⊢
  refine (Nat.min_le_left _ _).trans ?_
  rw [hm, Nat.mul_comm step m]
  refine Nat.mul_le_mul_right _ (roundQuotient_le_of_le (Nat.mul_pos hden hpos) ?_)
  calc num * one ≤ units * den := h
    _ = m * (den * step) := by rw [hm]; ring

/-- Nor does it lead below one. -/
theorem le_nearest_of_le (hden : 0 < den) (hbinary : IsBinary units) (hlimit : units ≤ limit)
    (h : units * den ≤ num * one) : units ≤ nearest num den := by
  have hfloor : units ≤ num * one / den := (Nat.le_div_iff_mul_le hden).mpr h
  obtain ⟨k, hspacing, hlow, hhigh⟩ := exists_spacing (num * one / den)
  have hpos : 0 < 2 ^ k := Nat.two_pow_pos k
  have hround := div_le_roundQuotient (num * one) (den * 2 ^ k)
  rw [← Nat.div_div_eq_div_mul] at hround
  unfold nearest
  dsimp only
  rw [hspacing]
  refine Nat.le_min.mpr ⟨?_, hlimit⟩
  by_cases hsame : k = 0 ∨ 2 ^ (k + 52) ≤ units
  · -- The magnitude is on the grid to which the quotient is rounded.
    rw [IsBinary, spacing_eq hsame (hfloor.trans_lt hhigh)] at hbinary
    obtain ⟨m, rfl⟩ := hbinary
    rw [Nat.mul_comm] at hfloor ⊢
    exact Nat.mul_le_mul_right _ (((Nat.le_div_iff_mul_le hpos).mpr hfloor).trans hround)
  · rw [not_or] at hsame
    have hdigits : 2 ^ 52 ≤ num * one / den / 2 ^ k := by
      rw [Nat.le_div_iff_mul_le hpos, ← Nat.pow_add, Nat.add_comm]
      exact hlow.resolve_left hsame.1
    calc units ≤ 2 ^ 52 * 2 ^ k := by rw [← Nat.pow_add, Nat.add_comm]; omega
      _ ≤ _ := Nat.mul_le_mul_right _ (hdigits.trans hround)

/-- What is closer to nothing than half of the least magnitude rounds to nothing. -/
theorem nearest_eq_zero (h : 2 * (num * one) < den) : nearest num den = 0 := by
  have hden : 0 < den := Nat.zero_lt_of_lt h
  refine nearest_eq_of_near (m := 0) (k := 0) hden (by decide) (.inl rfl) ?_ ?_ ?_ ?_ |>.trans ?_
  · simp
  · simp
  · simpa using h.le
  · simp
  · simp

/-- What is past the finite magnitudes is infinite. -/
theorem nearest_eq_limit (hden : 0 < den) (h : limit * den ≤ num * one) : nearest num den = limit := by
  have hfloor : limit ≤ num * one / den := (Nat.le_div_iff_mul_le hden).mpr h
  have hne : num * one / den ≠ 0 := fun h => by
    rw [h] at hfloor
    exact absurd hfloor (by decide +kernel)
  have hlog : 2098 ≤ (num * one / den).log2 := by
    by_contra hless
    have hpow := (Nat.lt_log2_self (n := num * one / den)).trans_le (pow_le_limit (by omega))
    omega
  have hkept : 2 ^ 52 * spacing (num * one / den) = 2 ^ (num * one / den).log2 := by
    calc 2 ^ 52 * 2 ^ ((num * one / den).log2 - 52)
        = 2 ^ (52 + ((num * one / den).log2 - 52)) := (Nat.pow_add _ _ _).symm
      _ = 2 ^ (num * one / den).log2 := by congr 1; omega
  unfold nearest
  dsimp only
  refine Nat.min_eq_right ?_
  calc limit ≤ 2 ^ (num * one / den).log2 := limit_le_pow hlog
    _ = 2 ^ 52 * spacing (num * one / den) := hkept.symm
    _ ≤ num * one / den / spacing (num * one / den) * spacing (num * one / den) := by
      refine Nat.mul_le_mul_right _ ((Nat.le_div_iff_mul_le (spacing_pos _)).mpr ?_)
      exact hkept.le.trans (Nat.log2_self_le hne)
    _ ≤ _ := by
      rw [Nat.div_div_eq_div_mul]
      exact Nat.mul_le_mul_right _ (div_le_roundQuotient _ _)

end Nearest

/-! ### Numbers -/

theorem isWhole_iff {x : Double} : x.isWhole ↔ x.isFinite ∧ one ∣ x.units := by
  unfold isWhole
  rw [Bool.and_eq_true, beq_iff_eq, Nat.dvd_iff_mod_eq_zero]

theorem not_isFinite_limit (negative : Bool) : ¬isFinite ⟨negative, limit⟩ := by simp [isFinite]

/-- The number is one of binary64, infinite ones included. -/
structure IsBinary64 (x : Double) : Prop where
  binary : IsBinary x.units
  bounded : x.units ≤ limit

theorem isBinary64_ofRatio (negative : Bool) (num den : Nat) :
    IsBinary64 (ofRatio negative num den) :=
  ⟨isBinary_nearest num den, nearest_le_limit num den⟩

/-- The product with a power of two is not rounded, unless it is past the finite numbers. -/
theorem IsBinary64.mul_pow {x : Double} (h : IsBinary64 x) (k : Nat) :
    x.mul ⟨false, 2 ^ k * one⟩ = ⟨x.negative, min (x.units * 2 ^ k) limit⟩ := by
  have hone : 0 < one * one := Nat.mul_pos unitsInOne_pos unitsInOne_pos
  have hexact : x.units * (2 ^ k * one) * one = x.units * 2 ^ k * (one * one) := by
    rw [← Nat.mul_assoc, Nat.mul_assoc _ one one]
  have hunits : nearest (x.units * (2 ^ k * one)) (one * one) = min (x.units * 2 ^ k) limit := by
    rcases Nat.le_total (x.units * 2 ^ k) limit with hle | hge
    · rw [Nat.min_eq_left hle]
      exact nearest_eq_of_exact hone (h.binary.mul_pow k) hle hexact
    · rw [Nat.min_eq_right hge, nearest_eq_limit hone]
      rw [hexact]
      exact Nat.mul_le_mul_right _ hge
  rw [mul, ofRatio, hunits]
  simp

end Catalog.Number.Double
