import Catalog.Proofs.Text.Hex
import Catalog.Store.Favorite

/-! Lists of texts, written as JSON and read again. Whatever characters a text has, it is read as it was
written. -/

namespace Catalog.Json

open Catalog.Text

/-! ### Characters -/

namespace Reader

def prepend (unit : Nat) (read : Quoted × List Char) : Quoted × List Char := (unit :: read.1, read.2)

theorem string?_hexDigits {n : Nat} (hn : n < 0x10000) (rest : List Char) :
    string? ('\\' :: 'u' :: hexDigits 4 n ++ rest) = (string? rest).map (prepend n) := by
  have hdigits : hexDigits 4 n = [hexDigit (n / 16 / 16 / 16 % 16), hexDigit (n / 16 / 16 % 16),
      hexDigit (n / 16 % 16), hexDigit (n % 16)] := rfl
  have hvalue : ((16 * (n / 16 / 16 / 16 % 16) + n / 16 / 16 % 16) * 16 + n / 16 % 16) * 16 +
      n % 16 = n := by
    omega
  rw [hdigits]
  simp only [List.cons_append, List.nil_append]
  rw [string?]
  simp only [hexValue?_hexDigit (Nat.mod_lt _ (by decide : 0 < 16)), Option.bind_eq_bind,
    Option.bind_some, hvalue]
  cases string? rest <;> rfl

theorem string?_escaped {letter c : Char} (h : escaped? letter = some c) (rest : List Char) :
    string? ('\\' :: letter :: rest) = (string? rest).map (prepend c.toNat) := by
  have hletter : letter ≠ 'u' := by
    rintro rfl
    cases h
  rw [string?.eq_def]
  split
  · simp_all
  · simp_all
  · simp_all
  · rename_i heq
    obtain ⟨-, heq⟩ := List.cons.inj heq
    obtain ⟨rfl, rfl⟩ := List.cons.inj heq
    rw [h]
    cases string? rest <;> rfl
  · rename_i hnot heq
    obtain ⟨rfl, rfl⟩ := List.cons.inj heq
    exact absurd rfl (hnot letter rest rfl)

theorem string?_of_plain {c : Char} (hquote : c ≠ '"') (hslash : c ≠ '\\') (hprintable : 0x20 ≤ c.toNat)
    (rest : List Char) : string? (c :: rest) = (string? rest).map (prepend c.toNat) := by
  rw [string?.eq_def]
  split
  · simp_all
  · simp_all
  · simp_all
  · simp_all
  · rename_i heq
    obtain ⟨rfl, rfl⟩ := List.cons.inj heq
    have hplain : ¬((decide (c.toNat < 0x20) || c == '\\') = true) := by
      simp [hslash, Nat.not_lt.mpr hprintable]
    rw [if_neg hplain]
    rfl

/-- A written character is read as itself. -/
theorem string?_escape (c : Char) (rest : List Char) :
    string? (escape c ++ rest) = (string? rest).map (prepend c.toNat) := by
  unfold escape
  split
  case h_8 =>
    rename_i hquote hslash _ _ _ _ _
    split
    · rename_i hcontrol
      exact string?_hexDigits (Nat.lt_trans hcontrol (by decide)) rest
    · rename_i hprintable
      exact string?_of_plain hquote hslash (Nat.not_lt.mp hprintable) rest
  all_goals exact string?_escaped rfl rest

theorem string?_flatMap_escape (s rest : List Char) :
    string? (s.flatMap escape ++ '"' :: rest) = some (s.map Char.toNat, rest) := by
  induction s with
  | nil => rfl
  | cons c s ih => rw [List.flatMap_cons, List.append_assoc, string?_escape, ih]; rfl

end Reader

/-- The code point of a character is no surrogate. -/
theorem not_surrogate (c : Char) : ¬(0xD800 ≤ c.toNat ∧ c.toNat < 0xE000) := by
  have hvalid := c.valid
  have hnat : c.toNat = c.val.toNat := rfl
  rw [UInt32.isValidChar, Nat.isValidChar] at hvalid
  omega

theorem decode?_cons (c : Char) (units : Quoted) :
    Quoted.decode? (c.toNat :: units) = (Quoted.decode? units).map (c :: ·) := by
  have hno := not_surrogate c
  cases units with
  | nil =>
    show (if 0xD800 ≤ c.toNat ∧ c.toNat < 0xE000 then none else some [Char.ofNat c.toNat]) = some [c]
    rw [if_neg hno, Char.ofNat_toNat]
  | cons unit rest =>
    rw [Quoted.decode?, if_neg (by omega), if_neg (by omega), Char.ofNat_toNat]

theorem decode?_map_toNat (s : List Char) : Quoted.decode? (s.map Char.toNat) = some s := by
  induction s with
  | nil => rfl
  | cons c s ih => rw [List.map_cons, decode?_cons, ih]; rfl

/-! ### Lists of texts -/

/-- A text as a tree. -/
def quotedTree (s : String) : Syntax := .string (s.toList.map Char.toNat)

namespace Reader

theorem value?_stringText (fuel : Nat) (s : String) (rest : List Char) :
    value? (fuel + 1) (stringText s ++ rest) = some (quotedTree s, rest) := by
  have hskip : skip (stringText s ++ rest) = '"' :: (s.toList.flatMap escape ++ '"' :: rest) := by
    simp [skip, stringText, isSpace]
  rw [value?, hskip]
  simp only [string?_flatMap_escape]
  rfl

theorem items?_compactItems {fuel : Nat} (s : String) (texts : List String) (rest : List Char)
    (hfuel : texts.length + 2 ≤ fuel) :
    items? fuel (Value.compactItems ((s :: texts).map .string) ++ ']' :: rest) =
      some ((s :: texts).map quotedTree, rest) := by
  induction texts generalizing s fuel with
  | nil =>
    obtain ⟨fuel, rfl⟩ : ∃ more, fuel = more + 2 := ⟨fuel - 2, by simp at hfuel; omega⟩
    have hitem : Value.compactItems ([s].map .string) = stringText s := rfl
    rw [hitem, items?, value?_stringText]
    rfl
  | cons next texts ih =>
    rw [List.length_cons] at hfuel
    obtain ⟨fuel, rfl⟩ : ∃ more, fuel = more + 2 := ⟨fuel - 2, by omega⟩
    have hitem : Value.compactItems ((s :: next :: texts).map .string) =
        stringText s ++ ',' :: Value.compactItems ((next :: texts).map .string) := rfl
    rw [hitem, List.append_assoc, items?, value?_stringText]
    have hrest : items? (fuel + 1)
        (Value.compactItems ((next :: texts).map .string) ++ ']' :: rest) =
          some ((next :: texts).map quotedTree, rest) := ih next (by omega)
    simp only [Option.bind_eq_bind, Option.bind_some]
    show (items? (fuel + 1) (Value.compactItems ((next :: texts).map .string) ++ ']' :: rest) >>= _) = _
    rw [hrest]
    rfl

end Reader

theorem length_le_compactItems (texts : List String) :
    texts.length ≤ (Value.compactItems (texts.map .string)).length := by
  induction texts with
  | nil => exact Nat.zero_le _
  | cons s texts ih =>
    cases texts with
    | nil => simp [Value.compactItems, Value.compactText, stringText]
    | cons next texts =>
      have hitem : Value.compactItems ((s :: next :: texts).map .string) =
          stringText s ++ ',' :: Value.compactItems ((next :: texts).map .string) := rfl
      rw [hitem, List.length_append]
      simp only [List.length_cons] at ih ⊢
      omega

theorem value?_compactText {fuel : Nat} (texts : List String) (hfuel : texts.length + 2 ≤ fuel) :
    Reader.value? (fuel + 1) (Value.array (texts.map .string)).compactText =
      some (.array (texts.map quotedTree), []) := by
  have htext : (Value.array (texts.map .string)).compactText =
      '[' :: (Value.compactItems (texts.map .string) ++ [']']) := rfl
  rw [htext]
  cases texts with
  | nil => rfl
  | cons s texts =>
    rw [List.length_cons] at hfuel
    have hread := Reader.items?_compactItems s texts [] (Nat.le_of_succ_le hfuel)
    have hquote : ∃ rest, Value.compactItems ((s :: texts).map .string) ++ [']'] = '"' :: rest := by
      cases texts <;> exact ⟨_, rfl⟩
    obtain ⟨rest, hrest⟩ := hquote
    rw [hrest] at hread ⊢
    have hskip : Reader.skip ('"' :: rest) = '"' :: rest := rfl
    have hopen : Reader.skip ('[' :: '"' :: rest) = '[' :: '"' :: rest := rfl
    rw [Reader.value?, hopen]
    simp only [hskip]
    show Option.map _ (Reader.items? fuel ('"' :: rest)) = _
    rw [hread]
    rfl

theorem itemsDepth_quotedTree (texts : List String) : itemsDepth (texts.map quotedTree) = 0 := by
  induction texts with
  | nil => rfl
  | cons s texts ih => rw [List.map_cons, itemsDepth, ih]; rfl

theorem itemsOf?_quotedTree (texts : List String) :
    Value.itemsOf? (texts.map quotedTree) = some (texts.map .string) := by
  induction texts with
  | nil => rfl
  | cons s texts ih =>
    have hfirst : Value.ofSyntax? (quotedTree s) = some (.string s) := by
      rw [quotedTree, Value.ofSyntax?, decode?_map_toNat, Option.map_some, String.ofList_toList]
    rw [List.map_cons, Value.itemsOf?, hfirst, ih]
    rfl

/-- A list of texts is read as it was written. -/
theorem read?_compact_strings (texts : List String) :
    Value.read? (Value.array (texts.map .string)).compact = some (.array (texts.map .string)) := by
  have htree : Syntax.read? (Value.array (texts.map .string)).compactText =
      some (.array (texts.map quotedTree)) := by
    have hlength : texts.length + 2 ≤ 2 * (Value.array (texts.map .string)).compactText.length := by
      have hle := length_le_compactItems texts
      have htext : (Value.array (texts.map .string)).compactText =
          '[' :: (Value.compactItems (texts.map .string) ++ [']']) := rfl
      rw [htext, List.length_cons, List.length_append]
      omega
    rw [Syntax.read?, value?_compactText texts hlength]
    rfl
  have hdepth : (Syntax.array (texts.map quotedTree)).depth ≤ Value.deepest := by
    rw [Syntax.depth, itemsDepth_quotedTree]
    decide
  rw [Value.read?, Value.compact, String.toList_ofList, htree]
  simp only [Option.bind_eq_bind, Option.bind_some]
  rw [if_pos hdepth, Value.ofSyntax?, itemsOf?_quotedTree]
  rfl

end Catalog.Json

namespace Catalog

open Catalog.Json

theorem strings?_map_string (texts : List String) : strings? (texts.map .string) = some texts := by
  induction texts with
  | nil => rfl
  | cons s texts ih => rw [List.map_cons, strings?, ih]; rfl

/-- Tags are read as they were given. -/
theorem tagsOf_tagsText (tags : List String) : tagsOf (tagsText tags) = tags := by
  rw [tagsOf, tagsText, read?_compact_strings]
  dsimp only
  rw [strings?_map_string, Option.getD_some]

end Catalog
