import Catalog.Text.Blank
import Catalog.Text.Hex

/-! Hexadecimal digits that are read back: as the number that they write, and as its bytes from the highest
down. -/

namespace Catalog.Text

theorem hexValue?_hexDigit : ∀ {n : Nat}, n < 16 → hexValue? (hexDigit n) = some n := by
  have hall : ∀ n < 16, hexValue? (hexDigit n) = some n := by decide
  intro n hn
  exact hall n hn

theorem isBlank_of_mem_hexDigits {count n : Nat} {c : Char} (h : c ∈ hexDigits count n) :
    isBlank c = false := by
  have hall : ∀ n < 16, isBlank (hexDigit n) = false := by decide
  induction count generalizing n with
  | zero => cases h
  | succ count ih =>
    rcases List.mem_append.mp h with hfront | hlast
    · exact ih hfront
    · rw [List.mem_singleton.mp hlast]
      exact hall _ (Nat.mod_lt _ (by decide))

/-! ### Numbers -/

/-- The number that hexadecimal digits write. -/
def hexNumber? (s : List Char) : Option Nat :=
  s.foldlM (fun n c => (hexValue? c).map fun digit => 16 * n + digit) 0

theorem hexNumber?_hexDigits {count n : Nat} (h : n < Nat.pow 16 count) :
    hexNumber? (hexDigits count n) = some n := by
  induction count generalizing n with
  | zero =>
    obtain rfl : n = 0 := Nat.lt_one_iff.mp h
    rfl
  | succ count ih =>
    have hfront : n / 16 < Nat.pow 16 count := Nat.div_lt_of_lt_mul (by rwa [Nat.mul_comm])
    have hread := ih hfront
    rw [hexNumber?] at hread
    rw [hexNumber?, hexDigits, List.foldlM_append, hread, Option.bind_eq_bind, Option.bind_some]
    simp [hexValue?_hexDigit (Nat.mod_lt n (by decide : 0 < 16)), Nat.div_add_mod]

/-! ### Bytes -/

/-- The last bytes of a number, `count` of them, the highest first. -/
def bigEndian : (count : Nat) → Nat → List UInt8
  | 0, _ => []
  | count + 1, n => bigEndian count (n / 256) ++ [UInt8.ofNat (n % 256)]

theorem length_bigEndian (count n : Nat) : (bigEndian count n).length = count := by
  induction count generalizing n with
  | zero => rfl
  | succ count ih => rw [bigEndian, List.length_append, ih, List.length_singleton]

theorem bytesOfHex?_append {s : List Char} {bytes : List UInt8} (h : bytesOfHex? s = some bytes)
    (t : List Char) : bytesOfHex? (s ++ t) = (bytesOfHex? t).map (bytes ++ ·) := by
  induction s using bytesOfHex?.induct generalizing bytes with
  | case1 =>
    cases h
    simp
  | case2 c => cases h
  | case3 a b rest ih =>
    simp only [bytesOfHex?, Option.bind_eq_bind, Option.bind_eq_some_iff] at h
    obtain ⟨high, hhigh, low, hlow, more, hmore, hbytes⟩ := h
    cases hbytes
    simp only [List.cons_append, bytesOfHex?, hhigh, hlow, ih hmore, Option.bind_eq_bind, Option.bind_some]
    cases bytesOfHex? t <;> rfl

/-- Two digits are read as a byte. -/
theorem bytesOfHex?_hexDigits (count n : Nat) :
    bytesOfHex? (hexDigits (2 * count) n) = some (bigEndian count n) := by
  induction count generalizing n with
  | zero => rfl
  | succ count ih =>
    have hdigits : hexDigits (2 * (count + 1)) n =
        hexDigits (2 * count) (n / 256) ++ [hexDigit (n / 16 % 16), hexDigit (n % 16)] := by
      rw [show 2 * (count + 1) = 2 * count + 1 + 1 by omega, hexDigits, hexDigits, List.append_assoc,
        Nat.div_div_eq_div_mul]
      rfl
    have hlast : bytesOfHex? [hexDigit (n / 16 % 16), hexDigit (n % 16)] =
        some [UInt8.ofNat (n % 256)] := by
      have hbyte : 16 * (n / 16 % 16) + n % 16 = n % 256 := by omega
      simp only [bytesOfHex?, hexValue?_hexDigit (Nat.mod_lt _ (by decide : 0 < 16)), Option.bind_eq_bind,
        Option.bind_some, hbyte]
      rfl
    rw [hdigits, bytesOfHex?_append (ih _), hlast, bigEndian]
    rfl

end Catalog.Text
