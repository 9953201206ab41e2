import Catalog.Number.Shortest
import Catalog.Proofs.Number.Decimal

/-! The shortest digits read back. A place that is taken to read back rounds to its magnitude, one of
seventeen digits always does, and so the digits that are found stand for the number they were found for. -/

namespace Catalog.Number.Shortest

open Double

/-! ### Reading back -/

section ReadsBack

variable {units place num den m k : Nat}

/-- The neighbour below is nearer only at a power of two. -/
theorem quartersBelow_eq (hm : m < 2 ^ 53) (hsmall : k = 0 ∨ 2 ^ 52 ≤ m) :
    quartersBelow (m * 2 ^ k) = if m = 2 ^ 52 ∧ k ≠ 0 then 2 else 4 := by
  unfold quartersBelow
  refine if_congr ⟨fun ⟨hpow, hlarge⟩ => ?_, fun ⟨hm, hk⟩ => ?_⟩ rfl rfl
  · have hk : k ≠ 0 := by
      rintro rfl
      change 2 ^ 53 ≤ m * 2 ^ 0 at hlarge
      omega
    refine ⟨?_, hk⟩
    have hmlow : 2 ^ 52 ≤ m := hsmall.resolve_left hk
    generalize (m * 2 ^ k).log2 = j at hpow
    change m * 2 ^ k = 2 ^ j at hpow
    have hlow : 2 ^ (52 + k) ≤ 2 ^ j := by
      rw [← hpow, Nat.pow_add]
      exact Nat.mul_le_mul_right _ hmlow
    have hhigh : 2 ^ j < 2 ^ (53 + k) := by
      rw [← hpow, Nat.pow_add]
      exact Nat.mul_lt_mul_of_pos_right hm (Nat.two_pow_pos k)
    have hj : j = 52 + k := by
      have h1 := (Nat.pow_le_pow_iff_right (by decide)).mp hlow
      have h2 := (Nat.pow_lt_pow_iff_right (by decide)).mp hhigh
      omega
    rw [hj, Nat.pow_add] at hpow
    exact Nat.eq_of_mul_eq_mul_right (Nat.two_pow_pos k) hpow
  · have hpow : m * 2 ^ k = 2 ^ (52 + k) := by rw [hm, Nat.pow_add]
    rw [hpow, Nat.log2_two_pow]
    refine ⟨rfl, ?_⟩
    change 2 ^ 53 ≤ 2 ^ (52 + k)
    exact Nat.pow_le_pow_right (by decide) (by omega)

/-- The bounds between which a place reads back, in quarters of the distance to the neighbour above. -/
theorem bounds_of_readsBack (h : readsBack units place) :
    ∃ quarter, 4 * quarter = spacing units * piecesPerUnit ∧
      units * piecesPerUnit ≤ place + quartersBelow units / 2 * quarter ∧
      place ≤ units * piecesPerUnit + 2 * quarter ∧
      (units / spacing units % 2 = 1 →
        units * piecesPerUnit < place + quartersBelow units / 2 * quarter ∧
          place < units * piecesPerUnit + 2 * quarter) := by
  refine ⟨spacing units * Nat.pow 10 400, by rw [piecesPerUnit, Nat.mul_left_comm], ?_⟩
  unfold readsBack at h
  dsimp only at h
  generalize spacing units * Nat.pow 10 400 = quarter at h ⊢
  generalize units * piecesPerUnit = middle at h ⊢
  generalize quartersBelow units / 2 * quarter = below at h ⊢
  split at h
  · simp only [Bool.and_eq_true, decide_eq_true_eq] at h
    omega
  · simp only [Bool.and_eq_true, decide_eq_true_eq] at h
    omega

theorem piecesPerUnit_pos : 0 < piecesPerUnit := by decide +kernel

/-- Bounds in quarters of a step, with everything counted in pieces, are bounds in halves and fourths of
the step. -/
theorem bounds_of_pieces {a b step quarter pieces : Nat} (hpieces : 0 < pieces)
    (hstep : step * pieces = 4 * quarter) :
    (a * pieces ≤ b * pieces + 2 * quarter → 2 * a ≤ 2 * b + step) ∧
      (a * pieces < b * pieces + 2 * quarter → 2 * a < 2 * b + step) ∧
      (a * pieces ≤ b * pieces + quarter → 4 * a ≤ 4 * b + step) := by
  refine ⟨fun h => ?_, fun h => ?_, fun h => ?_⟩
  · refine Nat.le_of_mul_le_mul_right (c := pieces) ?_ hpieces
    rw [Nat.add_mul, Nat.mul_assoc, Nat.mul_assoc, hstep]
    omega
  · refine Nat.lt_of_mul_lt_mul_right (a := pieces) ?_
    rw [Nat.add_mul, Nat.mul_assoc, Nat.mul_assoc, hstep]
    omega
  · refine Nat.le_of_mul_le_mul_right (c := pieces) ?_ hpieces
    rw [Nat.add_mul, Nat.mul_assoc, Nat.mul_assoc, hstep]
    omega

/-- A quotient at a place that reads back rounds to the magnitude. -/
theorem nearest_of_readsBack (hden : 0 < den) (hbinary : IsBinary units) (hlimit : units ≤ limit)
    (hplace : place * den = num * one * piecesPerUnit) (h : readsBack units place) :
    nearest num den = units := by
  obtain ⟨m, k, rfl, hspacing, hm, hsmall⟩ := hbinary.exists_digits
  obtain ⟨quarter, hquarter, hlow, hhigh, hodd⟩ := bounds_of_readsBack h
  rw [hspacing, Nat.mul_div_cancel _ (Nat.two_pow_pos k)] at hodd
  rw [hspacing] at hquarter
  have hpieces := piecesPerUnit_pos
  generalize piecesPerUnit = pieces at hplace hquarter hlow hhigh hodd hpieces
  have hstep : den * 2 ^ k * pieces = 4 * (quarter * den) := by
    calc den * 2 ^ k * pieces = 2 ^ k * pieces * den := by ring
      _ = 4 * (quarter * den) := by rw [← hquarter]; ring
  -- The bounds, times the denominator.
  have hscaled : m * 2 ^ k * pieces * den = m * (den * 2 ^ k) * pieces := by ring
  have hhigh' : (m * 2 ^ k * pieces + 2 * quarter) * den =
      m * (den * 2 ^ k) * pieces + 2 * (quarter * den) := by ring
  have hlow' : (place + quartersBelow (m * 2 ^ k) / 2 * quarter) * den =
      num * one * pieces + quartersBelow (m * 2 ^ k) / 2 * (quarter * den) := by
    rw [Nat.add_mul, hplace, Nat.mul_assoc (_ / 2)]
  have habove : num * one * pieces ≤ m * (den * 2 ^ k) * pieces + 2 * (quarter * den) := by
    calc num * one * pieces = place * den := hplace.symm
      _ ≤ (m * 2 ^ k * pieces + 2 * quarter) * den := Nat.mul_le_mul_right _ hhigh
      _ = _ := hhigh'
  have hbelow : m * (den * 2 ^ k) * pieces ≤
      num * one * pieces + quartersBelow (m * 2 ^ k) / 2 * (quarter * den) := by
    calc m * (den * 2 ^ k) * pieces = m * 2 ^ k * pieces * den := hscaled.symm
      _ ≤ (place + quartersBelow (m * 2 ^ k) / 2 * quarter) * den := Nat.mul_le_mul_right _ hlow
      _ = _ := hlow'
  have hstrict : m % 2 = 1 → num * one * pieces < m * (den * 2 ^ k) * pieces + 2 * (quarter * den) ∧
      m * (den * 2 ^ k) * pieces <
        num * one * pieces + quartersBelow (m * 2 ^ k) / 2 * (quarter * den) := by
    intro h
    obtain ⟨hlow, hhigh⟩ := hodd h
    constructor
    · calc num * one * pieces = place * den := hplace.symm
        _ < (m * 2 ^ k * pieces + 2 * quarter) * den := Nat.mul_lt_mul_of_pos_right hhigh hden
        _ = _ := hhigh'
    · calc m * (den * 2 ^ k) * pieces = m * 2 ^ k * pieces * den := hscaled.symm
        _ < (place + quartersBelow (m * 2 ^ k) / 2 * quarter) * den :=
          Nat.mul_lt_mul_of_pos_right hlow hden
        _ = _ := hlow'
  obtain ⟨hhalf, hhalf', -⟩ := bounds_of_pieces (a := num * one) (b := m * (den * 2 ^ k)) hpieces hstep
  obtain ⟨hback, hback', hfourth⟩ :=
    bounds_of_pieces (a := m * (den * 2 ^ k)) (b := num * one) hpieces hstep
  rw [quartersBelow_eq hm hsmall] at hbelow hstrict
  by_cases hboundary : m = 2 ^ 52 ∧ k ≠ 0
  · rw [if_pos hboundary, Nat.div_self (by decide), Nat.one_mul] at hbelow
    obtain ⟨rfl, hk⟩ := hboundary
    obtain ⟨k, rfl⟩ := Nat.exists_eq_succ_of_ne_zero hk
    rcases Nat.lt_or_ge (num * one) (2 ^ 52 * (den * 2 ^ (k + 1))) with hless | hmore
    · exact nearest_eq_of_near_below hden hlimit (hfourth hbelow) hless
    · exact nearest_eq_of_near hden (by decide) (.inr (.inr ⟨rfl, hmore⟩)) hlimit
        (hback (by omega)) (hhalf habove) fun h => absurd h (by decide)
  · rw [if_neg hboundary] at hbelow hstrict
    refine nearest_eq_of_near hden hm ?_ hlimit (hback hbelow) (hhalf habove) fun h =>
      ⟨hback' (hstrict h).2, hhalf' (hstrict h).1⟩
    rcases hsmall with hk | hmore
    · exact .inl hk
    · by_cases hk : k = 0
      · exact .inl hk
      · exact .inr (.inl (Nat.lt_of_le_of_ne hmore fun h => hboundary ⟨h.symm, hk⟩))

theorem quartersBelow_cases (units : Nat) : quartersBelow units = 2 ∨ quartersBelow units = 4 := by
  unfold quartersBelow
  split
  · exact .inl rfl
  · exact .inr rfl

/-- A place strictly between the bounds reads back. -/
theorem readsBack_of_near {quarter : Nat} (hquarter : 4 * quarter = spacing units * piecesPerUnit)
    (hlow : units * piecesPerUnit < place + quartersBelow units / 2 * quarter)
    (hhigh : place < units * piecesPerUnit + 2 * quarter) : readsBack units place := by
  have hsame : spacing units * Nat.pow 10 400 = quarter := by
    have hfour : 4 * (spacing units * Nat.pow 10 400) = 4 * quarter := by
      rw [hquarter, piecesPerUnit, Nat.mul_left_comm]
    omega
  unfold readsBack
  dsimp only
  rw [hsame]
  split
  · simp only [Bool.and_eq_true, decide_eq_true_eq]
    omega
  · -- An odd magnitude is at least as large as its spacing, so the lower bound is not cut off at zero.
    rename_i hodd
    have hle : spacing units ≤ units := by
      by_contra hless
      rw [Nat.div_eq_of_lt (Nat.lt_of_not_le hless)] at hodd
      exact hodd rfl
    have hmiddle : 4 * quarter ≤ units * piecesPerUnit := by
      rw [hquarter]
      exact Nat.mul_le_mul_right _ hle
    simp only [Bool.and_eq_true, decide_eq_true_eq]
    rcases quartersBelow_cases units with h | h <;> rw [h] at hlow ⊢ <;> omega

theorem exists_quarter (units : Nat) :
    ∃ quarter, 4 * quarter = spacing units * piecesPerUnit ∧ 0 < quarter :=
  ⟨spacing units * Nat.pow 10 400, by rw [piecesPerUnit, Nat.mul_left_comm],
    Nat.mul_pos (spacing_pos units) (by decide +kernel)⟩

theorem readsBack_self (units : Nat) : readsBack units (units * piecesPerUnit) := by
  obtain ⟨quarter, hquarter, hpos⟩ := exists_quarter units
  refine readsBack_of_near hquarter ?_ (by omega)
  rcases quartersBelow_cases units with h | h <;> rw [h] <;> omega

end ReadsBack

/-! ### Grids -/

theorem mul_pow_toNat_add {places : Nat} {exponent : Int} (unit : Nat) (h : -places ≤ exponent) :
    4 * unit * Nat.pow 10 (exponent + places).toNat * 10 ^ (-exponent).toNat =
      10 ^ exponent.toNat * unit * (4 * Nat.pow 10 places) := by
  have hpower : 10 ^ (exponent + places).toNat * 10 ^ (-exponent).toNat =
      10 ^ exponent.toNat * 10 ^ places := by
    rw [← Nat.pow_add, ← Nat.pow_add]
    congr 1
    omega
  calc 4 * unit * 10 ^ (exponent + places).toNat * 10 ^ (-exponent).toNat
      = 4 * unit * (10 ^ (exponent + places).toNat * 10 ^ (-exponent).toNat) := Nat.mul_assoc _ _ _
    _ = 10 ^ exponent.toNat * unit * (4 * 10 ^ places) := by rw [hpower]; ring

/-- The pieces in a power of ten are those in as many units. -/
theorem piecesInPower_mul {exponent : Int} (h : -400 ≤ exponent) :
    piecesInPower exponent * 10 ^ (-exponent).toNat = 10 ^ exponent.toNat * one * piecesPerUnit := by
  unfold piecesInPower piecesPerUnit
  -- The number of places is made a variable, so that no power of ten is computed.
  change -((400 : Nat) : Int) ≤ exponent at h
  rw [← Int.cast_ofNat_Int]
  generalize 400 = places at h ⊢
  exact mul_pow_toNat_add one h

theorem piecesInPower_of_nonneg {exponent : Int} (h : 0 ≤ exponent) :
    piecesInPower exponent = 10 ^ exponent.toNat * one * piecesPerUnit := by
  have hnone : (-exponent).toNat = 0 := by omega
  rw [← piecesInPower_mul (by omega), hnone, Nat.pow_zero, Nat.mul_one]

section Grid

variable {tie : Tie} {units d : Nat} {exponent : Int}

theorem piecesInPower_pos (exponent : Int) : 0 < piecesInPower exponent := by
  have hone := unitsInOne_pos
  unfold piecesInPower
  generalize one = unit at hone ⊢
  exact Nat.mul_pos (Nat.mul_pos (by decide) hone) (Nat.pow_pos (by decide))

/-- What is taken from a grid reads back. -/
theorem readsBack_of_onGrid? (h : onGrid? tie units exponent = some d) :
    readsBack units (d * piecesInPower exponent) := by
  unfold onGrid? at h
  dsimp only at h
  generalize units * piecesPerUnit / piecesInPower exponent = below at h
  generalize 2 * (units * piecesPerUnit % piecesInPower exponent) = twiceOver at h
  split at h
  · rename_i hfits
    rw [Bool.and_eq_true] at hfits
    have hd : d = below ∨ d = below + 1 := by
      rw [← Option.some.inj h]
      split
      · exact .inl rfl
      · split
        · exact .inr rfl
        · cases tie <;> dsimp only <;> omega
    rcases hd with rfl | rfl
    · exact hfits.1
    · exact hfits.2
  · split at h
    · rename_i hfits
      exact Option.some.inj h ▸ hfits
    · split at h
      · rename_i hfits
        exact Option.some.inj h ▸ hfits
      · cases h

theorem onGrid?_of_exact (h : units * piecesPerUnit = d * piecesInPower exponent) :
    onGrid? tie units exponent = some d := by
  have hpos := piecesInPower_pos exponent
  have hself : readsBack units (d * piecesInPower exponent) := h ▸ readsBack_self units
  unfold onGrid?
  dsimp only
  rw [h, Nat.mul_div_cancel _ hpos, Nat.mul_mod_left, hself]
  simp [hpos]

theorem isSome_onGrid? (h : readsBack units
      (units * piecesPerUnit / piecesInPower exponent * piecesInPower exponent) ∨
    readsBack units
      ((units * piecesPerUnit / piecesInPower exponent + 1) * piecesInPower exponent)) :
    (onGrid? tie units exponent).isSome := by
  unfold onGrid?
  dsimp only
  split
  · rfl
  · split
    · rfl
    · split
      · rfl
      · rename_i hlow hhigh
        exact absurd h (by simp [hlow, hhigh])

/-- One of the two places next to the magnitude reads back on a grid that is fine enough: seventeen digits
are more than fifty-three binary ones, so a step of the grid is less than a step of the magnitudes. -/
theorem isSome_onGrid?_of_fine {quarter : Nat} (hquarter : 4 * quarter = spacing units * piecesPerUnit)
    (hfine : piecesInPower exponent < 4 * quarter)
    (hfiner : quartersBelow units = 2 → piecesInPower exponent < 3 * quarter) :
    (onGrid? tie units exponent).isSome := by
  refine isSome_onGrid? ?_
  have hpos := piecesInPower_pos exponent
  have hsplit := Nat.div_add_mod (units * piecesPerUnit) (piecesInPower exponent)
  have hover := Nat.mod_lt (units * piecesPerUnit) hpos
  rw [Nat.mul_comm] at hsplit
  rw [Nat.add_mul, Nat.one_mul]
  generalize units * piecesPerUnit / piecesInPower exponent * piecesInPower exponent = low at hsplit ⊢
  have hreads : ∀ place, units * piecesPerUnit < place + quartersBelow units / 2 * quarter →
      place < units * piecesPerUnit + 2 * quarter → readsBack units place :=
    fun place => readsBack_of_near hquarter
  rcases quartersBelow_cases units with h | h
  · have hgrid := hfiner h
    rw [h] at hreads
    by_cases hnear : units * piecesPerUnit < low + quarter
    · exact .inl (hreads _ (by omega) (by omega))
    · exact .inr (hreads _ (by omega) (by omega))
  · rw [h] at hreads
    by_cases hnear : units * piecesPerUnit < low + 2 * quarter
    · exact .inl (hreads _ (by omega) (by omega))
    · exact .inr (hreads _ (by omega) (by omega))

end Grid

/-! ### Seventeen digits -/

section Digits

variable {tie : Tie} {units : Nat}

theorem exists_scale (hpos : 0 < units) :
    ∃ places : Nat, scale units = (places : Int) + 17 - 400 ∧
      10 ^ (places + 16) * one ≤ units * Nat.pow 10 400 := by
  have hsmall : 10 ^ 17 * one ≤ Nat.pow 10 400 := by decide +kernel
  have hone := unitsInOne_pos
  unfold scale
  generalize one = unit at hsmall hone ⊢
  generalize Nat.pow 10 400 = fine at hsmall ⊢
  have hquotient : 10 ^ 17 ≤ units * fine / unit := by
    rw [Nat.le_div_iff_mul_le hone]
    exact hsmall.trans (Nat.le_mul_of_pos_left _ hpos)
  have hbelow := Decimal.lt_pow_digitCount (units * fine / unit)
  have habove := Decimal.pow_digitCount_le (n := units * fine / unit) (by omega)
  generalize Decimal.digitCount (units * fine / unit) = count at hbelow habove ⊢
  have hcount : 17 < count := (Nat.pow_lt_pow_iff_right (by decide)).mp (hquotient.trans_lt hbelow)
  refine ⟨count - 17, by omega, ?_⟩
  rw [← Nat.le_div_iff_mul_le hone]
  have hlast : count - 17 + 16 = count - 1 := by omega
  rwa [hlast]

theorem isSome_onGrid?_seventeen (tie : Tie) (hbinary : IsBinary units) (hpos : 0 < units) :
    (onGrid? tie units (scale units - 17)).isSome := by
  obtain ⟨places, hscale, hfirst⟩ := exists_scale hpos
  obtain ⟨quarter, hquarter, hquarterpos⟩ := exists_quarter units
  have hgrid : 10 ^ 16 * piecesInPower (scale units - 17) ≤ units * piecesPerUnit := by
    have hplaces : (scale units - 17 + 400).toNat = places := by omega
    rw [piecesInPower, hplaces, piecesPerUnit]
    generalize one = unit at hfirst ⊢
    generalize Nat.pow 10 400 = fine at hfirst ⊢
    calc 10 ^ 16 * (4 * unit * Nat.pow 10 places) = 4 * (10 ^ (places + 16) * unit) := by
          rw [Nat.pow_add]
          change 10 ^ 16 * (4 * unit * 10 ^ places) = _
          ring
      _ ≤ 4 * (units * fine) := Nat.mul_le_mul_left _ hfirst
      _ = units * (4 * fine) := by ring
  obtain ⟨m, k, rfl, hspacing, hm, hsmall⟩ := hbinary.exists_digits
  have hunits : m * 2 ^ k * piecesPerUnit = m * (4 * quarter) := by
    rw [hquarter, hspacing, Nat.mul_assoc]
  refine isSome_onGrid?_of_fine hquarter ?_ fun hquarters => ?_
  · have hless : m * (4 * quarter) < 2 ^ 53 * (4 * quarter) :=
      Nat.mul_lt_mul_of_pos_right hm (by omega)
    omega
  · rw [quartersBelow_eq hm hsmall] at hquarters
    split at hquarters
    · rename_i hboundary
      obtain ⟨rfl, -⟩ := hboundary
      omega
    · cases hquarters

theorem findSome?_range_eq_some {α : Type} {f : Nat → Option α} {n : Nat} {a : α}
    (h : (List.range n).findSome? f = some a) : ∃ j < n, f j = some a ∧ ∀ i < j, f i = none := by
  induction n with
  | zero => cases h
  | succ n ih =>
    rw [List.range_succ, List.findSome?_append] at h
    cases hfound : (List.range n).findSome? f with
    | some b =>
      rw [hfound] at h
      obtain ⟨j, hj, hfirst⟩ := ih (hfound.trans h)
      exact ⟨j, by omega, hfirst⟩
    | none =>
      rw [hfound, Option.none_or, List.findSome?_singleton] at h
      rw [List.findSome?_eq_none_iff] at hfound
      exact ⟨n, by omega, h, fun i hi => hfound i (List.mem_range.mpr hi)⟩

/-- The digits are those of the coarsest grid with a place that reads back, without zeros at the end. -/
theorem exists_onGrid (tie : Tie) (hbinary : IsBinary units) (hpos : 0 < units) :
    ∃ n < 17, ∃ d, onGrid? tie units (scale units - (n + 1 : Nat)) = some d ∧
      (∀ i < n, onGrid? tie units (scale units - (i + 1 : Nat)) = none) ∧
      digits tie units = stripZeros 20 d (scale units - (n + 1 : Nat)) := by
  obtain ⟨last, hlast⟩ := Option.isSome_iff_exists.mp (isSome_onGrid?_seventeen tie hbinary hpos)
  cases hfound : (List.range 17).findSome? fun (n : Nat) =>
      (onGrid? tie units (scale units - (n + 1))).map fun d => (d, scale units - (n + 1)) with
  | none =>
    rw [List.findSome?_eq_none_iff] at hfound
    have hnone := hfound 16 (List.mem_range.mpr (by decide))
    have hsame : scale units - ((16 : Nat) + 1 : Int) = scale units - 17 := by omega
    rw [hsame, hlast] at hnone
    cases hnone
  | some found =>
    obtain ⟨n, hn, hsome, hearlier⟩ := findSome?_range_eq_some hfound
    obtain ⟨d, hd, rfl⟩ := Option.map_eq_some_iff.mp hsome
    refine ⟨n, hn, d, hd, fun i hi => Option.map_eq_none_iff.mp (hearlier i hi), ?_⟩
    unfold digits
    dsimp only
    rw [hfound]
    rfl

/-- The zeros at the end count for nothing but the exponent. -/
theorem value_stripZeros (most d : Nat) (exponent : Int) :
    ((stripZeros most d exponent).1 : ℚ) * 10 ^ (stripZeros most d exponent).2 = d * 10 ^ exponent := by
  induction most generalizing d exponent with
  | zero => rfl
  | succ most ih =>
    rw [stripZeros]
    split
    · rename_i hzero
      have hd : (d : ℚ) = (d / 10 : Nat) * 10 := by
        have hten : d = d / 10 * 10 := by omega
        exact_mod_cast hten
      rw [ih, zpow_add_one₀ (by norm_num), hd]
      ring
    · rfl

theorem le_exponent_stripZeros (most d : Nat) (exponent : Int) :
    exponent ≤ (stripZeros most d exponent).2 := by
  induction most generalizing d exponent with
  | zero => exact Int.le_refl _
  | succ most ih =>
    rw [stripZeros]
    split
    · exact (Int.le_add_one (Int.le_refl _)).trans (ih _ _)
    · exact Int.le_refl _

theorem toDouble_of_readsBack {d : Nat} {exponent : Int} (hexponent : -400 ≤ exponent)
    (hbinary : IsBinary units) (hlimit : units ≤ limit)
    (h : readsBack units (d * piecesInPower exponent)) (negative : Bool) :
    Decimal.toDouble ⟨negative, d, exponent⟩ = ⟨negative, units⟩ := by
  rw [Decimal.toDouble_eq, ofRatio]
  dsimp only
  rw [nearest_of_readsBack (Nat.pow_pos (by decide)) hbinary hlimit ?_ h]
  rw [Nat.mul_assoc, piecesInPower_mul hexponent]
  simp only [Nat.mul_assoc]

/-- The digits read back. -/
theorem toDouble_digits (tie : Tie) (negative : Bool) (hbinary : IsBinary units) (hpos : 0 < units)
    (hlimit : units ≤ limit) :
    Decimal.toDouble ⟨negative, (digits tie units).1, (digits tie units).2⟩ = ⟨negative, units⟩ := by
  obtain ⟨n, hn, d, hd, -, hdigits⟩ := exists_onGrid tie hbinary hpos
  obtain ⟨places, hscale, -⟩ := exists_scale hpos
  rw [← toDouble_of_readsBack (by omega) hbinary hlimit (readsBack_of_onGrid? hd) negative, hdigits]
  exact Decimal.toDouble_congr rfl (value_stripZeros 20 d _)

theorem digits_ne_zero (tie : Tie) (hbinary : IsBinary units) (hpos : 0 < units)
    (hlimit : units ≤ limit) : (digits tie units).1 ≠ 0 := by
  intro hzero
  have hreads := congrArg Double.units (toDouble_digits tie false hbinary hpos hlimit)
  rw [hzero] at hreads
  have hnothing : Decimal.toDouble ⟨false, 0, (digits tie units).2⟩ = ⟨false, 0⟩ := rfl
  rw [hnothing] at hreads
  exact hpos.ne hreads

/-! ### Whole numbers -/

theorem scale_pos_of_whole {n : Nat} (hn : 0 < n) : 0 < scale (n * one) := by
  have hquotient : ∀ fine, n * one * fine / one = n * fine := fun fine => by
    rw [Nat.mul_right_comm, Nat.mul_div_cancel _ unitsInOne_pos]
  have hcount : ∀ k, k < Decimal.digitCount (n * Nat.pow 10 k) := fun k => by
    have hbelow := Decimal.lt_pow_digitCount (n * Nat.pow 10 k)
    have hmany : 10 ^ k ≤ n * Nat.pow 10 k := Nat.le_mul_of_pos_left _ hn
    exact (Nat.pow_lt_pow_iff_right (by decide)).mp (hmany.trans_lt hbelow)
  have hcount := hcount 400
  rw [scale, hquotient]
  omega

/-- The digits of a whole number are found at the latest on the grid of whole numbers. -/
theorem exists_onGrid_of_whole (tie : Tie) {n : Nat} (hbinary : IsBinary (n * one)) (hn : 0 < n) :
    ∃ d exponent, 0 ≤ exponent ∧ onGrid? tie (n * one) exponent = some d ∧
      digits tie (n * one) = stripZeros 20 d exponent := by
  obtain ⟨j, -, d, hd, hearlier, hdigits⟩ := exists_onGrid tie hbinary (Nat.mul_pos hn unitsInOne_pos)
  refine ⟨d, _, ?_, hd, hdigits⟩
  by_contra hfraction
  have hscale := scale_pos_of_whole hn
  have hexact : onGrid? tie (n * one) 0 = some n := by
    refine onGrid?_of_exact ?_
    rw [piecesInPower_of_nonneg (Int.le_refl 0)]
    simp [Nat.mul_assoc]
  have hnone := hearlier (scale (n * one) - 1).toNat (by omega)
  have hzero : scale (n * one) - (((scale (n * one) - 1).toNat + 1 : Nat) : Int) = 0 := by omega
  rw [hzero, hexact] at hnone
  cases hnone

/-- A magnitude has an exponent below zero exactly if it is no whole number. -/
theorem exponent_nonneg_iff (tie : Tie) (hbinary : IsBinary units) (hpos : 0 < units)
    (hlimit : units ≤ limit) : 0 ≤ (digits tie units).2 ↔ one ∣ units := by
  constructor
  · intro hexponent
    have hreads := congrArg Double.units (toDouble_digits tie false hbinary hpos hlimit)
    have hwhole : (-(digits tie units).2).toNat = 0 := by omega
    rw [Decimal.toDouble_eq, ofRatio] at hreads
    dsimp only at hreads
    rw [hwhole, Nat.pow_zero] at hreads
    have hdvd := one_dvd_nearest ((digits tie units).1 * 10 ^ (digits tie units).2.toNat)
    rw [hreads] at hdvd
    exact hdvd
  · rintro ⟨n, hn⟩
    rw [Nat.mul_comm one] at hn
    rw [hn] at hbinary hpos ⊢
    obtain ⟨d, exponent, hexponent, -, hdigits⟩ :=
      exists_onGrid_of_whole tie hbinary (Nat.pos_of_mul_pos_right hpos)
    rw [hdigits]
    exact hexponent.trans (le_exponent_stripZeros _ _ _)

theorem spacing_le_one {n : Nat} (h : n < 2 ^ 53) : spacing (n * one) ≤ one := by
  obtain ⟨k, hspacing, hlow, -⟩ := exists_spacing (n * one)
  obtain ⟨j, hone⟩ := exists_one_eq
  rw [hspacing]
  rcases hlow with rfl | hlow
  · exact unitsInOne_pos
  · have hless : 2 ^ (k + 52) < 2 ^ (53 + j) :=
      calc 2 ^ (k + 52) ≤ n * one := hlow
        _ < 2 ^ 53 * one := Nat.mul_lt_mul_of_pos_right h unitsInOne_pos
        _ = 2 ^ (53 + j) := by rw [hone, Nat.pow_add]
    have hk := (Nat.pow_lt_pow_iff_right (by decide)).mp hless
    rw [hone]
    exact Nat.pow_le_pow_right (by decide) (by omega)

/-- Below 2^53 no other whole number reads back. -/
theorem eq_of_readsBack_of_whole {n n' : Nat} (hn : n < 2 ^ 53)
    (h : readsBack (n * one) (n' * one * piecesPerUnit)) : n' = n := by
  obtain ⟨quarter, hquarter, hlow, hhigh, -⟩ := bounds_of_readsBack h
  have hstep : 4 * quarter ≤ one * piecesPerUnit := by
    rw [hquarter]
    exact Nat.mul_le_mul_right _ (spacing_le_one hn)
  have hpos : 0 < one * piecesPerUnit := Nat.mul_pos unitsInOne_pos piecesPerUnit_pos
  have hhalf : quartersBelow (n * one) / 2 * quarter ≤ 2 * quarter := by
    refine Nat.mul_le_mul_right _ ?_
    rcases quartersBelow_cases (n * one) with h | h <;> rw [h]
    decide
  rw [Nat.mul_assoc, Nat.mul_assoc] at hlow hhigh
  generalize one * piecesPerUnit = pieces at hlow hhigh hstep hpos
  refine Nat.le_antisymm ?_ ?_
  · by_contra hmore
    have hnext : (n + 1) * pieces ≤ n' * pieces := Nat.mul_le_mul_right _ (by omega)
    rw [Nat.add_mul] at hnext
    omega
  · by_contra hless
    have hnext : (n' + 1) * pieces ≤ n * pieces := Nat.mul_le_mul_right _ (by omega)
    rw [Nat.add_mul] at hnext
    omega

/-- The digits of a whole number up to 2^53 are its own. -/
theorem value_digits_of_whole (tie : Tie) {n : Nat} (hpos : 0 < n) (hn : n ≤ 2 ^ 53) :
    0 ≤ (digits tie (n * one)).2 ∧
      (digits tie (n * one)).1 * 10 ^ (digits tie (n * one)).2.toNat = n := by
  rcases Nat.lt_or_eq_of_le hn with hless | rfl
  · have hbinary : IsBinary (n * one) := isBinary_mul_one hn
    obtain ⟨d, exponent, hexponent, hd, hdigits⟩ := exists_onGrid_of_whole tie hbinary hpos
    have hstrip := le_exponent_stripZeros 20 d exponent
    have hreads := readsBack_of_onGrid? hd
    rw [piecesInPower_of_nonneg hexponent, ← Nat.mul_assoc, ← Nat.mul_assoc] at hreads
    have hwhole : d * 10 ^ exponent.toNat = n :=
      eq_of_readsBack_of_whole hless hreads
    have hvalue := value_stripZeros 20 d exponent
    rw [hdigits]
    generalize stripZeros 20 d exponent = found at hvalue hstrip ⊢
    obtain ⟨p, rfl⟩ := Int.eq_ofNat_of_zero_le hexponent
    obtain ⟨q, hq⟩ := Int.eq_ofNat_of_zero_le (hexponent.trans hstrip)
    rw [hq, zpow_natCast, zpow_natCast] at hvalue
    rw [hq]
    refine ⟨Int.natCast_nonneg q, ?_⟩
    rw [← hwhole]
    exact_mod_cast hvalue
  · cases tie <;> decide +kernel

end Digits

end Catalog.Number.Shortest
