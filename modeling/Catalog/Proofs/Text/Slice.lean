import Catalog.Proofs.Text.Ascii
import Catalog.Text.Utf8

/-! Texts read by byte offsets. A slice starts and ends where a character starts or the text ends; any
other offset is no place in the text, and the reading fails. -/

namespace Catalog.Text

/-- The result of reading by offsets. It fails with an offset at which there is nothing to be read. -/
abbrev Reading (α : Type) := Except Nat α

/-- The text before and after an offset, which must be a place between characters. -/
def splitAt? : Nat → List Char → Option (List Char × List Char)
  | 0, s => some ([], s)
  | _ + 1, [] => none
  | n + 1, c :: s =>
    if c.utf8Size ≤ n + 1 then
      (splitAt? (n + 1 - c.utf8Size) s).map fun parts => (c :: parts.1, parts.2)
    else none

/-- The part of a text from one offset to another. -/
def slice (s : List Char) (start stop : Nat) : Reading (List Char) :=
  match splitAt? stop s with
  | none => .error stop
  | some (front, _) =>
    match splitAt? start front with
    | none => .error start
    | some (_, middle) => .ok middle

/-- The element of a list at an index. -/
def entryAt {α : Type} (xs : List α) (i : Nat) : Reading α :=
  match xs[i]? with
  | some x => .ok x
  | none => .error i

/-- The bytes of a text in UTF-8. -/
def utf8 (s : List Char) : List UInt8 := s.flatMap String.utf8EncodeChar

variable {s front middle back : List Char} {n start stop : Nat} {c : Char}

/-! ### Bytes -/

@[simp] theorem byteLength_nil : byteLength [] = 0 := rfl

@[simp] theorem byteLength_cons (c : Char) (s : List Char) :
    byteLength (c :: s) = c.utf8Size + byteLength s := rfl

theorem byteLength_singleton (c : Char) : byteLength [c] = c.utf8Size := by simp

theorem byteLength_eq_zero_iff : byteLength s = 0 ↔ s = [] := by
  cases s with
  | nil => simp
  | cons c s =>
    have hpos := c.utf8Size_pos
    simp
    omega

@[simp] theorem length_utf8 (s : List Char) : (utf8 s).length = byteLength s := by
  induction s with
  | nil => rfl
  | cons c s ih =>
    rw [utf8, List.flatMap_cons, List.length_append, String.length_utf8EncodeChar, ← utf8, ih,
      byteLength_cons]

theorem utf8_append (s t : List Char) : utf8 (s ++ t) = utf8 s ++ utf8 t := List.flatMap_append

theorem toBytes_ofList (s : List Char) : toBytes (String.ofList s) = utf8 s := by
  rw [toBytes, String.toUTF8_eq_toByteArray, String.toByteArray_ofList]
  simp [List.utf8Encode, utf8]

theorem utf8ByteSize_ofList (s : List Char) : (String.ofList s).utf8ByteSize = byteLength s := by
  rw [← length_utf8, ← toBytes_ofList, toBytes, String.toUTF8_eq_toByteArray, ← String.size_toByteArray]
  rfl

/-- A character of ASCII is one byte, all bytes of another one are beyond ASCII. -/
theorem toNat_of_mem_utf8EncodeChar {byte : UInt8} (h : byte ∈ String.utf8EncodeChar c) :
    byte.toNat = c.toNat ∨ 127 < c.toNat ∧ 127 < byte.toNat := by
  have hnat : c.val.toNat = c.toNat := rfl
  rw [String.utf8EncodeChar, hnat] at h
  split at h
  · rw [List.mem_singleton] at h
    subst h
    refine .inl ?_
    rw [UInt8.toNat_ofNat']
    omega
  · have hbyte : ∃ n, 127 < n ∧ n < 256 ∧ byte = UInt8.ofNat n := by
      split at h
      · simp only [List.mem_cons, List.not_mem_nil, or_false] at h
        rcases h with rfl | rfl <;> exact ⟨_, by omega, by omega, rfl⟩
      · split at h
        · simp only [List.mem_cons, List.not_mem_nil, or_false] at h
          rcases h with rfl | rfl | rfl <;> exact ⟨_, by omega, by omega, rfl⟩
        · simp only [List.mem_cons, List.not_mem_nil, or_false] at h
          rcases h with rfl | rfl | rfl | rfl <;> exact ⟨_, by omega, by omega, rfl⟩
    obtain ⟨n, hlow, hhigh, rfl⟩ := hbyte
    refine .inr ⟨by omega, ?_⟩
    rw [UInt8.toNat_ofNat']
    omega

/-- Capitals take as many bytes as the letters they come from. -/
theorem utf8Size_toUpper (c : Char) : c.toUpper.utf8Size = c.utf8Size := by
  cases hlower : c.isLower with
  | false => rw [toUpper_of_not_isLower hlower]
  | true =>
    have hlow := bounds_of_isLower hlower
    have hval := val_toUpper hlower
    have hupper : c.toUpper.utf8Size = 1 := Char.utf8Size_eq_one_iff.mpr (by grind)
    have hsame : c.utf8Size = 1 := Char.utf8Size_eq_one_iff.mpr (by grind)
    rw [hupper, hsame]

@[simp] theorem byteLength_upper (s : List Char) : byteLength (upper s) = byteLength s := by
  induction s with
  | nil => rfl
  | cons c s ih => rw [upper, List.map_cons, byteLength_cons, utf8Size_toUpper, ← upper, ih,
      byteLength_cons]

/-! ### Slices -/

theorem splitAt?_append (front back : List Char) :
    splitAt? (byteLength front) (front ++ back) = some (front, back) := by
  induction front with
  | nil => rw [byteLength_nil, splitAt?, List.nil_append]
  | cons c front ih =>
    obtain ⟨n, hn⟩ : ∃ n, byteLength (c :: front) = n + 1 :=
      Nat.exists_eq_add_one_of_ne_zero (byteLength_eq_zero_iff.not.mpr (List.cons_ne_nil c front))
    have hrest : n + 1 - c.utf8Size = byteLength front := by
      rw [byteLength_cons] at hn
      omega
    rw [hn, List.cons_append, splitAt?, hrest, ih, if_pos (by rw [← hn, byteLength_cons]; omega)]
    rfl

/-- An offset splits a text where it is the length of what stands before it. -/
theorem splitAt?_eq_some_iff :
    splitAt? n s = some (front, back) ↔ s = front ++ back ∧ byteLength front = n := by
  constructor
  · intro h
    induction s generalizing n front with
    | nil =>
      cases n with
      | zero =>
        obtain ⟨rfl, rfl⟩ := Prod.mk.inj (Option.some.inj h)
        exact ⟨rfl, rfl⟩
      | succ n => cases h
    | cons c s ih =>
      cases n with
      | zero =>
        obtain ⟨rfl, rfl⟩ := Prod.mk.inj (Option.some.inj h)
        exact ⟨rfl, rfl⟩
      | succ n =>
        rw [splitAt?] at h
        split at h
        · obtain ⟨parts, hparts, heq⟩ := Option.map_eq_some_iff.mp h
          obtain ⟨rfl, rfl⟩ := Prod.mk.inj heq
          obtain ⟨rfl, hlength⟩ := ih hparts
          refine ⟨rfl, ?_⟩
          rw [byteLength_cons, hlength]
          omega
        · cases h
  · rintro ⟨rfl, rfl⟩
    exact splitAt?_append front back

/-- The places in a text are its valid positions. -/
theorem isSome_splitAt?_iff : (splitAt? n s).isSome ↔ String.Pos.Raw.IsValid (String.ofList s) ⟨n⟩ := by
  rw [String.Pos.Raw.isValid_iff_exists_append, Option.isSome_iff_exists]
  constructor
  · rintro ⟨⟨front, back⟩, h⟩
    obtain ⟨rfl, rfl⟩ := splitAt?_eq_some_iff.mp h
    refine ⟨String.ofList front, String.ofList back, String.ofList_append, ?_⟩
    rw [← utf8ByteSize_ofList]
    rfl
  · rintro ⟨first, rest, hs, hn⟩
    refine ⟨(first.toList, rest.toList), splitAt?_eq_some_iff.mpr ⟨?_, ?_⟩⟩
    · rw [← String.toList_append, ← hs, String.toList_ofList]
    · rw [← utf8ByteSize_ofList, String.ofList_toList]
      exact (congrArg String.Pos.Raw.byteIdx hn).symm

theorem isValid_byteLength (front back : List Char) :
    String.Pos.Raw.IsValid (String.ofList (front ++ back)) ⟨byteLength front⟩ :=
  isSome_splitAt?_iff.mp (by rw [splitAt?_append]; rfl)

/-- A slice is what stands between its offsets. -/
theorem slice_eq_ok_iff : slice s start stop = .ok middle ↔
    ∃ front back, s = front ++ middle ++ back ∧ byteLength front = start ∧
      byteLength (front ++ middle) = stop := by
  constructor
  · intro h
    rw [slice] at h
    split at h
    · cases h
    · rename_i whole back hstop
      split at h
      · cases h
      · rename_i front _ hstart
        cases h
        obtain ⟨rfl, rfl⟩ := splitAt?_eq_some_iff.mp hstop
        obtain ⟨rfl, rfl⟩ := splitAt?_eq_some_iff.mp hstart
        exact ⟨front, back, rfl, rfl, rfl⟩
  · rintro ⟨front, back, rfl, rfl, rfl⟩
    rw [slice, splitAt?_append]
    simp only [splitAt?_append]

/-- An offset inside of a character is no place. -/
example : slice ['é', '='] 1 3 = .error 1 := rfl

theorem slice_append (front middle back : List Char) :
    slice (front ++ middle ++ back) (byteLength front) (byteLength (front ++ middle)) = .ok middle :=
  slice_eq_ok_iff.mpr ⟨front, back, rfl, rfl, rfl⟩

theorem slice_front (front back : List Char) :
    slice (front ++ back) 0 (byteLength front) = .ok front := slice_append [] front back

theorem slice_back (front back : List Char) :
    slice (front ++ back) (byteLength front) (byteLength (front ++ back)) = .ok back := by
  simpa using slice_append front back []

theorem entryAt_eq_ok_iff {α : Type} {xs : List α} {x : α} {i : Nat} :
    entryAt xs i = .ok x ↔ xs[i]? = some x := by
  rw [entryAt]
  cases xs[i]? <;> simp

theorem entryAt_append {α : Type} {xs ys : List α} {y : α} (i : Nat) (h : xs.length = i) :
    entryAt (xs ++ y :: ys) i = .ok y := by
  subst h
  simp [entryAt_eq_ok_iff]

/-- An offset at a character or inside of it is that of one of its bytes. -/
theorem exists_byte {i : Nat} (hlow : byteLength front ≤ i) (hhigh : i < byteLength (front ++ [c])) :
    ∃ byte ∈ String.utf8EncodeChar c, entryAt (utf8 (front ++ c :: back)) i = .ok byte := by
  have hinside : i - byteLength front < (String.utf8EncodeChar c).length := by
    rw [byteLength_append, byteLength_singleton] at hhigh
    rw [String.length_utf8EncodeChar]
    omega
  refine ⟨_, List.getElem_mem hinside, entryAt_eq_ok_iff.mpr ?_⟩
  have hc : utf8 (c :: back) = String.utf8EncodeChar c ++ utf8 back := List.flatMap_cons
  rw [utf8_append, hc, List.getElem?_append_right (by rwa [length_utf8]), length_utf8,
    List.getElem?_append_left hinside, List.getElem?_eq_getElem hinside]

end Catalog.Text
