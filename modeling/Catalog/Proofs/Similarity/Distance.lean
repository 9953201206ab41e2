import Catalog.Similarity.Hash

/-! The distance of hashes: on byte strings of one length the number of differing places is a metric,
and it is the number of places at which the bits of the hashes differ. -/

namespace Catalog.Similarity

/-- Elements that satisfy one of two predicates are counted by one of two counts. -/
theorem countP_le_add_countP {α : Type} {p q r : α → Bool} {xs : List α}
    (h : ∀ x ∈ xs, p x → q x ∨ r x) : xs.countP p ≤ xs.countP q + xs.countP r := by
  induction xs with
  | nil => simp
  | cons x xs ih =>
    have hrest := ih fun y hy => h y (List.mem_cons_of_mem x hy)
    have hx := h x List.mem_cons_self
    simp only [List.countP_cons]
    grind

theorem onesInByte_triangle (a b c : UInt8) :
    onesInByte (a ^^^ c) ≤ onesInByte (a ^^^ b) + onesInByte (b ^^^ c) := by
  apply countP_le_add_countP
  intro i _
  simp only [UInt8.toNat_xor, Nat.testBit_xor]
  cases a.toNat.testBit i <;> cases b.toNat.testBit i <;> simp

theorem onesInByte_le (byte : UInt8) : onesInByte byte ≤ 8 := by
  have hle := List.countP_le_length (p := fun i => byte.toNat.testBit i) (l := List.range 8)
  simpa [onesInByte] using hle

theorem onesInByte_eq_zero_iff {byte : UInt8} : onesInByte byte = 0 ↔ byte = 0 := by
  constructor
  · intro hzero
    rw [onesInByte, List.countP_eq_zero] at hzero
    have hnat : byte.toNat = 0 := by
      apply Nat.eq_of_testBit_eq
      intro i
      rw [Nat.zero_testBit]
      by_cases hi : i < 8
      · simpa using hzero i (List.mem_range.mpr hi)
      · have hbyte : byte.toNat < 2 ^ 8 := byte.toNat_lt
        have hpow : 2 ^ 8 ≤ 2 ^ i := Nat.pow_le_pow_right (by decide) (by omega)
        exact Nat.testBit_lt_two_pow (Nat.lt_of_lt_of_le hbyte hpow)
    exact UInt8.toNat_inj.mp hnat
  · rintro rfl
    rfl

theorem differingBits_comm (as bs : List UInt8) : differingBits as bs = differingBits bs as := by
  induction as generalizing bs with
  | nil => cases bs <;> rfl
  | cons a as ih =>
    cases bs with
    | nil => rfl
    | cons b bs => rw [differingBits, differingBits, ih, UInt8.xor_comm]

theorem differingBits_triangle {as bs cs : List UInt8} (hab : as.length = bs.length)
    (hbc : bs.length = cs.length) :
    differingBits as cs ≤ differingBits as bs + differingBits bs cs := by
  induction as generalizing bs cs with
  | nil =>
    obtain rfl : bs = [] := List.length_eq_zero_iff.mp hab.symm
    obtain rfl : cs = [] := List.length_eq_zero_iff.mp hbc.symm
    simp [differingBits]
  | cons a as ih =>
    match bs, cs, hab, hbc with
    | b :: bs, c :: cs, hab, hbc =>
      have hrest : differingBits as cs ≤ differingBits as bs + differingBits bs cs :=
        ih (by simpa using hab) (by simpa using hbc)
      have hbyte := onesInByte_triangle a b c
      simp only [differingBits]
      omega

/-- The count is bounded by the number of bits; below a length of 2 ^ 29 bytes it fits a word of 32. -/
theorem differingBits_le (as bs : List UInt8) : differingBits as bs ≤ 8 * as.length := by
  induction as generalizing bs with
  | nil => simp [differingBits]
  | cons a as ih =>
    cases bs with
    | nil => simp [differingBits]
    | cons b bs =>
      have hbyte := onesInByte_le (a ^^^ b)
      have hrest := ih bs
      rw [differingBits, List.length_cons]
      omega

/-- Byte strings of one length that differ nowhere are equal. -/
theorem differingBits_eq_zero_iff {as bs : List UInt8} (h : as.length = bs.length) :
    differingBits as bs = 0 ↔ as = bs := by
  induction as generalizing bs with
  | nil =>
    obtain rfl : bs = [] := List.length_eq_zero_iff.mp h.symm
    simp [differingBits]
  | cons a as ih =>
    cases bs with
    | nil => simp at h
    | cons b bs =>
      rw [differingBits, Nat.add_eq_zero_iff, onesInByte_eq_zero_iff, UInt8.xor_eq_zero_iff,
        ih (by simpa using h), List.cons.injEq]

/-- Hashes of one length have a distance. -/
theorem BitHash.distance?_of_length_eq {a b : BitHash} (h : a.bytes.length = b.bytes.length) :
    a.distance? b = some (differingBits a.bytes b.bytes) := if_pos h

/-- Hashes of different lengths have none. -/
theorem BitHash.distance?_of_length_ne {a b : BitHash} (h : a.bytes.length ≠ b.bytes.length) :
    a.distance? b = none := if_neg h

/-- On the hashes of one length the distance is a metric that their number of bits bounds: it is
defined, symmetric, zero between equal bytes only, and obeys the triangle inequality, so that the
distances of two hashes from a third differ by at most their own. Between hashes of different lengths it
is not defined, in either direction. -/
theorem BitHash.distance_is_metric :
    (∀ a b c : BitHash, a.bytes.length = b.bytes.length → b.bytes.length = c.bytes.length →
      ∃ ab bc ac : Nat,
        (a.distance? b = some ab ∧ b.distance? c = some bc ∧ a.distance? c = some ac) ∧
        b.distance? a = some ab ∧ (ab = 0 ↔ a.bytes = b.bytes) ∧ ab ≤ a.bitLength ∧
        ac ≤ ab + bc ∧ ((ab : Int) - bc).natAbs ≤ ac) ∧
    ∀ a b : BitHash, a.bytes.length ≠ b.bytes.length →
      a.distance? b = none ∧ b.distance? a = none := by
  refine ⟨fun a b c hab hbc => ?_, fun a b h => ?_⟩
  · have hac := hab.trans hbc
    have hab_ac := differingBits_triangle hab hbc
    have hba_bc := differingBits_triangle hab.symm hac
    have hac_cb := differingBits_triangle hac hbc.symm
    have hba := differingBits_comm b.bytes a.bytes
    have hcb := differingBits_comm c.bytes b.bytes
    refine ⟨differingBits a.bytes b.bytes, differingBits b.bytes c.bytes,
      differingBits a.bytes c.bytes, ⟨?_, ?_, ?_⟩, ?_, ?_, ?_, hab_ac, by omega⟩
    · exact distance?_of_length_eq hab
    · exact distance?_of_length_eq hbc
    · exact distance?_of_length_eq hac
    · rw [distance?_of_length_eq hab.symm, hba]
    · exact differingBits_eq_zero_iff hab
    · exact differingBits_le a.bytes b.bytes
  · exact ⟨distance?_of_length_ne h, distance?_of_length_ne h.symm⟩

/-- Three hashes of two bytes, and one of a single byte. -/
theorem BitHash.distance_is_metric_on_two_bytes :
    let a : BitHash := ⟨[0xFF, 0x00]⟩
    let b : BitHash := ⟨[0x0F, 0x01]⟩
    let c : BitHash := ⟨[0x0F, 0x00]⟩
    let short : BitHash := ⟨[0xFF]⟩
    (a.bytes.length = b.bytes.length ∧ b.bytes.length = c.bytes.length ∧
      a.bytes.length ≠ short.bytes.length) ∧
    (∃ ab bc ac : Nat,
      (a.distance? b = some ab ∧ b.distance? c = some bc ∧ a.distance? c = some ac) ∧
      b.distance? a = some ab ∧ (ab = 0 ↔ a.bytes = b.bytes) ∧ ab ≤ a.bitLength ∧
      ac ≤ ab + bc ∧ ((ab : Int) - bc).natAbs ≤ ac) ∧
    (a.distance? b = some 5 ∧ b.distance? c = some 1 ∧ a.distance? c = some 4) ∧
    a.distance? short = none ∧ short.distance? a = none := by
  intro a b c short
  have hmetric := distance_is_metric
  exact ⟨by decide, hmetric.1 a b c rfl rfl, by decide, hmetric.2 a short (by decide)⟩

/-! ### Bits -/

namespace BitHash

/-- The bit at a place, counted from the first digit of the hash on. -/
def bitAt (hash : BitHash) (place : Nat) : Bool :=
  (hash.bytes[place / 8]?.getD 0).toNat.testBit (7 - place % 8)

/-- The number of places at which the bits of two hashes differ. -/
def hamming (a b : BitHash) : Nat :=
  (List.range a.bitLength).countP fun place => a.bitAt place != b.bitAt place

theorem bitAt_cons (byte : UInt8) (bytes : List UInt8) (place : Nat) :
    bitAt ⟨byte :: bytes⟩ (8 + place) = bitAt ⟨bytes⟩ place := by
  have hbyte : (8 + place) / 8 = place / 8 + 1 := by omega
  have hbit : (8 + place) % 8 = place % 8 := by omega
  rw [bitAt, bitAt, hbyte, hbit, List.getElem?_cons_succ]

theorem onesInByte_xor (a b : UInt8) (as bs : List UInt8) :
    onesInByte (a ^^^ b) =
      (List.range 8).countP fun place => bitAt ⟨a :: as⟩ place != bitAt ⟨b :: bs⟩ place := by
  simp only [onesInByte, bitAt, UInt8.toNat_xor, Nat.testBit_xor, List.range_succ, List.range_zero,
    List.nil_append, List.cons_append, List.countP_cons, List.countP_nil]
  simp
  omega

/-- Counting byte by byte is counting place by place. -/
theorem differingBits_eq_hamming {as bs : List UInt8} (h : as.length = bs.length) :
    differingBits as bs = hamming ⟨as⟩ ⟨bs⟩ := by
  induction as generalizing bs with
  | nil =>
    obtain rfl : bs = [] := List.length_eq_zero_iff.mp h.symm
    rfl
  | cons a as ih =>
    cases bs with
    | nil => simp at h
    | cons b bs =>
      have hlength : bitLength ⟨a :: as⟩ = 8 + bitLength ⟨as⟩ := by
        simp only [bitLength, List.length_cons]
        omega
      rw [differingBits, ih (by simpa using h), onesInByte_xor a b as bs, hamming, hamming, hlength,
        List.range_add, List.countP_append, List.countP_map]
      simp only [Function.comp_def, bitAt_cons]

theorem distance?_eq_some_iff {a b : BitHash} {d : Nat} :
    a.distance? b = some d ↔ a.bitLength = b.bitLength ∧ a.hamming b = d := by
  have hlength : a.bitLength = b.bitLength ↔ a.bytes.length = b.bytes.length := by
    simp only [bitLength]
    omega
  rw [hlength, distance?]
  split
  · rename_i hsame
    rw [differingBits_eq_hamming hsame, Option.some.injEq]
    exact ⟨fun hd => ⟨hsame, hd⟩, fun hd => hd.2⟩
  · rename_i hother
    constructor
    · intro hd
      cases hd
    · rintro ⟨hsame, -⟩
      exact absurd hsame hother

end BitHash

end Catalog.Similarity
