import Catalog.Number.WrittenForm
import Catalog.Proofs.Number.Shortest

/-! Written numbers read back as themselves, in each of the written forms. -/

namespace Catalog.Number

open Catalog.Text

theorem toDigits_mul_pow {d : Nat} (hd : 0 < d) (zeros : Nat) :
    Nat.toDigits 10 (d * 10 ^ zeros) = Nat.toDigits 10 d ++ List.replicate zeros '0' := by
  induction zeros with
  | zero => simp
  | succ zeros ih =>
    have hpos : 0 < d * 10 ^ zeros := Nat.mul_pos hd (Nat.pow_pos (by decide))
    have happend := Nat.toDigits_append_toDigits (b := 10) (d := 0) (by decide) hpos (by decide)
    have hnext : d * 10 ^ (zeros + 1) = 10 * (d * 10 ^ zeros) + 0 := by ring
    rw [hnext, ← happend, ih, List.append_assoc, List.replicate_succ']
    rfl

theorem toDigits_injective {m n : Nat} (h : Nat.toDigits 10 m = Nat.toDigits 10 n) : m = n := by
  rw [← digitsValue_toDigits m, h, digitsValue_toDigits]

namespace WrittenForm

/-- What follows the digits of a whole number is nothing, or a point with a zero. -/
def Plausible (form : WrittenForm) : Prop := form.wholeEnding = [] ∨ form.wholeEnding = ['.', '0']

variable {form : WrittenForm} {d : Nat} {exponent : Int}

theorem isDigit_of_mem_replicate {n : Nat} {c : Char} (h : c ∈ List.replicate n '0') : c.isDigit := by
  rw [List.eq_of_mem_replicate h]
  decide

/-- Digits below one, in their places, are read as they stand. -/
theorem read?_positional_of_neg (form : WrittenForm) (d : Nat) (h : exponent < 0) :
    Decimal.read? (form.positional (Nat.toDigits 10 d) exponent) = some ⟨false, d, exponent⟩ := by
  have hdigits : ∀ c ∈ Nat.toDigits 10 d, c.isDigit := fun _ => isDigit_of_mem_toDigits
  have hplaces : (0 : Int) - (-exponent).toNat = exponent := by omega
  unfold positional
  rw [if_neg (by omega)]
  dsimp only
  generalize (-exponent).toNat = places at hplaces ⊢
  split
  · rename_i hshort
    have hread := Decimal.read?_fraction
      ((Nat.toDigits 10 d).take ((Nat.toDigits 10 d).length - places))
      ((Nat.toDigits 10 d).drop ((Nat.toDigits 10 d).length - places)) []
      (by simpa using by omega) (fun c hc => hdigits c (List.mem_of_mem_take hc))
      (fun c hc => hdigits c (List.mem_of_mem_drop hc)) (by simp)
    rw [List.append_nil, List.take_append_drop, digitsValue_toDigits, List.length_drop] at hread
    rw [hread, Decimal.exponent?, Option.map_some]
    congr 2
    omega
  · rename_i hlong
    have hread := Decimal.read?_fraction ['0']
      (List.replicate (places - (Nat.toDigits 10 d).length) '0' ++ Nat.toDigits 10 d) []
      (by simp) (by simp) (fun c hc => (List.mem_append.mp hc).elim isDigit_of_mem_replicate (hdigits c))
      (by simp)
    rw [List.append_nil] at hread
    have hvalue : digitsValue (['0'] ++
        (List.replicate (places - (Nat.toDigits 10 d).length) '0' ++ Nat.toDigits 10 d)) = d := by
      have hzero : digitsValue ['0'] = 0 := rfl
      rw [digitsValue_append, digitsValue_append, hzero, digitsValue_replicate_zero, digitsValue_toDigits]
      omega
    rw [hvalue, Decimal.exponent?, Option.map_some] at hread
    refine hread.trans ?_
    congr 2
    rw [List.length_append, List.length_replicate]
    omega

/-- Digits of a whole number, in their places, are read as the whole number. -/
theorem read?_positional_of_nonneg (hform : form.Plausible) (hd : 0 < d) (h : 0 ≤ exponent) :
    ∃ decimal, Decimal.read? (form.positional (Nat.toDigits 10 d) exponent) = some decimal ∧
      decimal.negative = false ∧ decimal.magnitude = d * 10 ^ exponent := by
  have hdigits : ∀ c ∈ Nat.toDigits 10 (d * 10 ^ exponent.toNat), c.isDigit :=
    fun _ => isDigit_of_mem_toDigits
  have hvalue : ((d * 10 ^ exponent.toNat : Nat) : ℚ) = d * 10 ^ exponent := by
    obtain ⟨k, rfl⟩ := Int.eq_ofNat_of_zero_le h
    rw [Int.toNat_natCast, zpow_natCast]
    push_cast
    rfl
  unfold positional
  rw [if_pos h, ← toDigits_mul_pow hd]
  rcases hform with hending | hending
  · rw [hending, List.append_nil, Decimal.read?_integerText]
    exact ⟨_, rfl, rfl, by simp [Decimal.magnitude, hvalue]⟩
  · have hread := Decimal.read?_fraction _ ['0'] [] Nat.toDigits_ne_nil hdigits
      (by simp) (by simp)
    rw [hending]
    refine ⟨_, hread, rfl, ?_⟩
    have hzero : digitsValue ['0'] = 0 := rfl
    have hten : digitsValue (Nat.toDigits 10 (d * 10 ^ exponent.toNat) ++ ['0']) =
        10 * (d * 10 ^ exponent.toNat) := by
      rw [digitsValue_append, digitsValue_toDigits, hzero]
      rfl
    rw [Decimal.magnitude, hten, ← hvalue, Nat.cast_mul, List.length_singleton]
    generalize ((d * 10 ^ exponent.toNat : Nat) : ℚ) = value
    norm_num
    ring

theorem read?_scientific (d : Nat) (leading : Int) :
    Decimal.read? (scientific (Nat.toDigits 10 d) leading) =
      some ⟨false, d, leading + 1 - (Nat.toDigits 10 d).length⟩ := by
  have hdigits : ∀ c ∈ Nat.toDigits 10 d, c.isDigit := fun _ => isDigit_of_mem_toDigits
  have hvalue := digitsValue_toDigits d
  have hexponent : Decimal.exponent? ('e' :: (if leading < 0 then '-' else '+') ::
      Nat.toDigits 10 leading.natAbs) = some leading := by
    have hread := Decimal.exponent?_cons (decide (leading < 0)) Nat.toDigits_ne_nil
      fun c (hc : c ∈ Nat.toDigits 10 leading.natAbs) => isDigit_of_mem_toDigits hc
    simp only [decide_eq_true_eq, digitsValue_toDigits] at hread
    rw [hread]
    split <;> congr 1 <;> omega
  have hmark : ∀ c ∈ ('e' :: (if leading < 0 then '-' else '+') ::
      Nat.toDigits 10 leading.natAbs).head?, c.isDigit = false ∧ c ≠ '.' := by
    intro c hc
    obtain rfl : 'e' = c := Option.some.inj hc
    decide
  unfold scientific
  dsimp only
  cases hshown : Nat.toDigits 10 d with
  | nil => exact absurd hshown Nat.toDigits_ne_nil
  | cons c rest =>
    rw [hshown] at hdigits hvalue
    cases rest with
    | nil =>
      have hread := Decimal.read?_whole [c] _ (by simp) hdigits hmark
      rw [hexponent, hvalue] at hread
      refine hread.trans ?_
      simp
    | cons next rest =>
      have hread := Decimal.read?_fraction [c] (next :: rest) _ (by simp)
        (fun x hx => hdigits x (by simp_all)) (fun x hx => hdigits x (List.mem_cons_of_mem _ hx))
        (fun x hx => (hmark x hx).1)
      have hwhole : [c] ++ next :: rest = c :: next :: rest := rfl
      rw [hexponent, hwhole, hvalue] at hread
      refine (congrArg Decimal.read? ?_).trans (hread.trans ?_)
      · simp
      · simp only [Option.map_some, List.length_cons]
        congr 2
        push_cast
        omega

theorem toDouble_magnitude (hform : form.Plausible) {units : Nat} (hbinary : Double.IsBinary units)
    (hpos : 0 < units) (hlimit : units ≤ Double.limit) :
    ∃ decimal, Decimal.read? (form.magnitude units) = some decimal ∧
      decimal.toDouble = ⟨false, units⟩ := by
  have hreads := Shortest.toDouble_digits form.tie false hbinary hpos hlimit
  have hdigits := Shortest.digits_ne_zero form.tie hbinary hpos hlimit
  unfold magnitude
  dsimp only
  generalize Shortest.digits form.tie units = shortest at hreads hdigits ⊢
  obtain ⟨d, exponent⟩ := shortest
  dsimp only at hreads hdigits ⊢
  split
  · rcases lt_or_ge exponent 0 with hnegative | hwhole
    · exact ⟨_, read?_positional_of_neg form d hnegative, hreads⟩
    · obtain ⟨decimal, hread, hsign, hvalue⟩ :=
        read?_positional_of_nonneg hform (Nat.pos_of_ne_zero hdigits) hwhole
      exact ⟨decimal, hread, (Decimal.toDouble_congr hsign hvalue).trans hreads⟩
  · have hread := read?_scientific d (exponent + (Nat.toDigits 10 d).length - 1)
    have hexponent : exponent + (Nat.toDigits 10 d).length - 1 + 1 - (Nat.toDigits 10 d).length =
        exponent := by omega
    rw [hexponent] at hread
    exact ⟨_, hread, hreads⟩

theorem isDigit_head_magnitude (form : WrittenForm) (units : Nat) :
    ∀ c ∈ (form.magnitude units).head?, c.isDigit := by
  unfold magnitude
  dsimp only
  generalize (Shortest.digits form.tie units).1 = d
  generalize (Shortest.digits form.tie units).2 = exponent
  have hdigits : ∀ c ∈ Nat.toDigits 10 d, c.isDigit := fun _ => isDigit_of_mem_toDigits
  obtain ⟨first, rest, hshown⟩ := List.exists_cons_of_ne_nil (Nat.toDigits_ne_nil (b := 10) (n := d))
  rw [hshown] at hdigits ⊢
  have hfirst : first.isDigit := hdigits first List.mem_cons_self
  split
  · unfold positional
    split
    · simp [hfirst]
    · dsimp only
      generalize (-exponent).toNat = places
      split
      · rename_i hshort
        obtain ⟨k, hk⟩ : ∃ k, (first :: rest).length - places = k + 1 :=
          ⟨(first :: rest).length - places - 1, by omega⟩
        rw [hk, List.take_succ_cons]
        simp [hfirst]
      · simp
  · simp [scientific, hfirst]

/-- A written number reads back as itself. -/
theorem read?_write (hform : form.Plausible) {x : Double} (hx : x.IsBinary64) (hfinite : x.isFinite) :
    Double.read? (form.write x) = some x := by
  have hunsigned : ∃ unsigned decimal, form.write x = (if x.negative then '-' :: unsigned else unsigned) ∧
      (∀ c ∈ unsigned.head?, c.isDigit) ∧ Decimal.read? unsigned = some decimal ∧
        decimal.toDouble = ⟨false, x.units⟩ := by
    unfold write
    rw [hfinite]
    by_cases hzero : x.units = 0
    · rw [hzero]
      refine ⟨'0' :: form.wholeEnding, ⟨false, 0, if form.wholeEnding = [] then 0 else -1⟩, rfl, ?_, ?_,
        rfl⟩
      · simp
      · rcases hform with hending | hending <;> rw [hending] <;> rfl
    · obtain ⟨decimal, hread, hvalue⟩ :=
        toDouble_magnitude hform hx.binary (Nat.pos_of_ne_zero hzero) hx.bounded
      refine ⟨form.magnitude x.units, decimal, ?_, form.isDigit_head_magnitude _, hread, hvalue⟩
      simp [hzero]
  obtain ⟨unsigned, decimal, hwrite, hhead, hread, hvalue⟩ := hunsigned
  obtain ⟨negative, units⟩ := x
  cases negative with
  | false =>
    rw [hwrite]
    simp only [Bool.false_eq_true, if_false, Double.read?, hread, Option.map_some, hvalue,
      Option.filter_some]
    exact if_pos hfinite
  | true =>
    have hsigned : { decimal with negative := true }.toDouble = ⟨true, units⟩ := by
      rw [Decimal.toDouble_eq] at hvalue ⊢
      exact congrArg (Double.mk true) (congrArg Double.units hvalue)
    rw [hwrite]
    simp only [if_true, Double.read?, Decimal.read?_minus hhead, hread, Option.map_some, hsigned,
      Option.filter_some]
    exact if_pos hfinite

end WrittenForm

theorem plausible_inJson : inJson.Plausible := .inr rfl

end Catalog.Number
