import Mathlib.Data.List.Forall2
import Catalog.Proofs.Text.Lines
import Catalog.Text.Raw

/-! Raw text that spells a text. It shows as that text, and it is told from any other by what it shows. -/

namespace Catalog.Text

/-! ### The bytes of a character -/

section Bytes

variable {byte : UInt8} {bytes tail rest : List UInt8} {ranges : List ByteRange} {n m k : Nat}

theorem holds_iff {range : ByteRange} : range.holds byte = true ↔
    range.first ≤ byte.toNat ∧ byte.toNat ≤ range.last := by
  rw [ByteRange.holds, Bool.and_eq_true, decide_eq_true_iff, decide_eq_true_iff]

theorem toNat_ofNat_add (h : n + m < 256) : (UInt8.ofNat (n + m)).toNat = n + m :=
  UInt8.toNat_ofNat_of_lt' h

theorem following_holds (h : n < 64) : following.holds (UInt8.ofNat (n + 128)) = true := by
  rw [holds_iff, toNat_ofNat_add (by omega)]
  dsimp only [following]
  omega

/-- Bytes in the ranges that are missing complete a character. -/
theorem advance_append (h : List.Forall₂ (fun range byte => range.holds byte = true) ranges tail) :
    (advance bytes ranges).1 ++ spelled (advance bytes ranges).2 (tail ++ rest) =
      .char (Char.ofNat (scalarOf (bytes ++ tail))) :: spelled none rest := by
  induction h generalizing bytes with
  | nil => rw [List.append_nil]; rfl
  | @cons range byte ranges tail hbyte _ ih =>
    have hread : readByte (some ⟨bytes, range, ranges⟩) byte = advance (bytes ++ [byte]) ranges :=
      if_pos hbyte
    rw [advance, List.nil_append, List.cons_append, spelled, hread, ih, List.append_assoc]
    rfl

theorem spelled_append (hbyte : rangesAfter? byte = some ranges)
    (h : List.Forall₂ (fun range byte => range.holds byte = true) ranges tail) :
    spelled none (byte :: tail ++ rest) =
      .char (Char.ofNat (scalarOf (byte :: tail))) :: spelled none rest := by
  have hread : readByte none byte = advance [byte] ranges := by
    rw [readByte, restart, hbyte]
  rw [List.cons_append, spelled, hread]
  exact advance_append h

/-! What the first byte of a character asks for is there: one range for each length, narrowed where the
character could be written shorter, would be a surrogate or lies beyond the last one. -/

theorem rangesAfter?_two (hlow : 2 ≤ n) (hhigh : n < 32) :
    rangesAfter? (UInt8.ofNat (n + 192)) = some [following] := by
  rw [rangesAfter?, toNat_ofNat_add (by omega), if_neg (by omega), if_neg (by omega),
    if_pos (by omega)]

theorem rangesAfter?_three (hn : n < 16) (hm : m < 64) (hlong : n = 0 → 32 ≤ m)
    (hplain : n = 13 → m < 32) :
    ∃ range, rangesAfter? (UInt8.ofNat (n + 224)) = some [range, following] ∧
      range.holds (UInt8.ofNat (m + 128)) = true := by
  simp only [rangesAfter?, holds_iff, toNat_ofNat_add (show n + 224 < 256 by omega),
    toNat_ofNat_add (show m + 128 < 256 by omega)]
  rw [if_neg (by omega), if_neg (by omega), if_neg (by omega)]
  by_cases hfirst : n = 0
  · have hm' := hlong hfirst
    exact ⟨_, by rw [if_pos (by omega)], by dsimp only; omega⟩
  · rw [if_neg (by omega)]
    by_cases hlast : n = 13
    · have hm' := hplain hlast
      exact ⟨_, by rw [if_pos (by omega)], by dsimp only; omega⟩
    · exact ⟨_, by rw [if_neg (by omega), if_pos (by omega)], by dsimp only [following]; omega⟩

theorem rangesAfter?_four (hn : n ≤ 4) (hm : m < 64) (hlong : n = 0 → 16 ≤ m)
    (hlast : n = 4 → m < 16) :
    ∃ range, rangesAfter? (UInt8.ofNat (n + 240)) = some [range, following, following] ∧
      range.holds (UInt8.ofNat (m + 128)) = true := by
  simp only [rangesAfter?, holds_iff, toNat_ofNat_add (show n + 240 < 256 by omega),
    toNat_ofNat_add (show m + 128 < 256 by omega)]
  rw [if_neg (by omega), if_neg (by omega), if_neg (by omega), if_neg (by omega), if_neg (by omega),
    if_neg (by omega)]
  by_cases hfirst : n = 0
  · have hm' := hlong hfirst
    exact ⟨_, by rw [if_pos (by omega)], by dsimp only; omega⟩
  · rw [if_neg (by omega)]
    by_cases hfour : n = 4
    · have hm' := hlast hfour
      exact ⟨_, by rw [if_neg (by omega), if_pos (by omega)], by dsimp only; omega⟩
    · exact ⟨_, by rw [if_pos (by omega)], by dsimp only [following]; omega⟩

/-- The bytes of a character are a first one and those that it asks for, and stand for the character. -/
theorem exists_utf8EncodeChar (c : Char) : ∃ byte tail ranges,
    String.utf8EncodeChar c = byte :: tail ∧ rangesAfter? byte = some ranges ∧
      List.Forall₂ (fun range byte => range.holds byte = true) ranges tail ∧
      Char.ofNat (scalarOf (byte :: tail)) = c := by
  have hvalid : c.toNat < 0xD800 ∨ 0xDFFF < c.toNat ∧ c.toNat < 0x110000 := c.valid
  have hscalar : ∀ {number : Nat}, number = c.toNat → Char.ofNat number = c := by
    rintro _ rfl
    exact Char.ofNat_toNat c
  rw [String.utf8EncodeChar, show c.val.toNat = c.toNat from rfl]
  split
  · rename_i hone
    have hbyte : (UInt8.ofNat c.toNat).toNat = c.toNat :=
      UInt8.toNat_ofNat_of_lt' (show c.toNat < 256 by omega)
    refine ⟨_, _, [], rfl, ?_, .nil, hscalar hbyte⟩
    rw [rangesAfter?, hbyte]
    exact if_pos (by omega)
  · split
    · refine ⟨_, _, _, rfl, rangesAfter?_two (by omega) (by omega),
        .cons (following_holds (by omega)) .nil, hscalar ?_⟩
      rw [scalarOf, toNat_ofNat_add (by omega), toNat_ofNat_add (by omega)]
      omega
    · split
      · obtain ⟨range, hranges, hrange⟩ := rangesAfter?_three (n := c.toNat / 4096 % 16)
          (m := c.toNat / 64 % 64) (by omega) (by omega) (by omega) (by omega)
        refine ⟨_, _, _, rfl, hranges, .cons hrange (.cons (following_holds (by omega)) .nil), hscalar ?_⟩
        rw [scalarOf, toNat_ofNat_add (by omega), toNat_ofNat_add (by omega), toNat_ofNat_add (by omega)]
        omega
      · obtain ⟨range, hranges, hrange⟩ := rangesAfter?_four (n := c.toNat / 262144 % 8)
          (m := c.toNat / 4096 % 64) (by omega) (by omega) (by omega) (by omega)
        refine ⟨_, _, _, rfl, hranges, .cons hrange
          (.cons (following_holds (by omega)) (.cons (following_holds (by omega)) .nil)), hscalar ?_⟩
        rw [scalarOf, toNat_ofNat_add (by omega), toNat_ofNat_add (by omega), toNat_ofNat_add (by omega),
          toNat_ofNat_add (by omega)]
        omega

/-! ### What stands beside a byte of ASCII -/

theorem first_of_rangesAfter? (h : rangesAfter? byte = some ranges) :
    ∀ range ∈ ranges, 0x80 ≤ range.first := by
  unfold rangesAfter? at h
  dsimp only at h
  repeat' split at h
  all_goals cases h <;> simp [following]

/-- No byte of ASCII is missing of a character that is begun. -/
def Begun.BeyondAscii (state : Option Begun) : Prop :=
  ∀ begun ∈ state, ∀ range ∈ begun.next :: begun.later, 0x80 ≤ range.first

theorem beyondAscii_advance (h : ∀ range ∈ ranges, 0x80 ≤ range.first) :
    Begun.BeyondAscii (advance bytes ranges).2 := by
  intro begun hbegun
  cases ranges with
  | nil => cases hbegun
  | cons next later =>
    cases hbegun
    exact h

theorem beyondAscii_restart (byte : UInt8) : Begun.BeyondAscii (restart byte).2 := by
  rw [restart]
  split
  · exact beyondAscii_advance (first_of_rangesAfter? ‹_›)
  · intro begun hbegun
    cases hbegun

theorem beyondAscii_readByte {state : Option Begun} (h : Begun.BeyondAscii state) (byte : UInt8) :
    Begun.BeyondAscii (readByte state byte).2 := by
  cases state with
  | none => exact beyondAscii_restart byte
  | some begun =>
    rw [readByte]
    split
    · exact beyondAscii_advance (List.forall_mem_cons.mp (h begun rfl)).2
    · exact beyondAscii_restart byte

/-- A byte of ASCII is a character of its own, whatever stands before it and after it. -/
theorem spelled_append_ascii {state : Option Begun} {front : List UInt8} (hstate : Begun.BeyondAscii state)
    (hbyte : byte.toNat < 0x80) :
    spelled state (front ++ byte :: rest) =
      spelled state front ++ .char (Char.ofNat byte.toNat) :: spelled none rest := by
  induction front generalizing state with
  | nil =>
    have hrestart : restart byte = ([.char (Char.ofNat byte.toNat)], none) := by
      rw [restart, rangesAfter?, if_pos hbyte]
      rfl
    rw [List.nil_append, spelled]
    cases state with
    | none => rw [readByte, hrestart]; rfl
    | some begun =>
      have hmissed : begun.next.holds byte = false := by
        have hfirst := hstate begun rfl begun.next List.mem_cons_self
        rw [← Bool.not_eq_true, holds_iff]
        omega
      rw [readByte, hmissed, if_neg Bool.false_ne_true, hrestart]
      rfl
  | cons other front ih =>
    rw [List.cons_append, spelled, spelled, ih (beyondAscii_readByte hstate other), List.append_assoc]

end Bytes

theorem spelled_utf8 (s : List Char) : spelled none (utf8 s) = s.map .char := by
  induction s with
  | nil => rfl
  | cons c s ih =>
    obtain ⟨byte, tail, ranges, hbytes, hranges, htail, hc⟩ := exists_utf8EncodeChar c
    rw [utf8_cons, hbytes, spelled_append hranges htail, hc, ih, List.map_cons]

/-! ### Texts among raw texts -/

theorem utf8_singleton {c : Char} (h : c.toNat < 128) : utf8 [c] = [UInt8.ofNat c.toNat] := by
  have hone : c.val.toNat ≤ 127 := Nat.le_of_lt_succ h
  rw [utf8, List.flatMap_singleton, String.utf8EncodeChar, if_pos hone]
  rfl

/-- A byte of ASCII is a whole character. -/
theorem eq_of_mem_utf8EncodeChar {c d : Char} (hc : c.toNat < 128)
    (h : UInt8.ofNat c.toNat ∈ String.utf8EncodeChar d) : d = c := by
  have hbyte : (UInt8.ofNat c.toNat).toNat = c.toNat :=
    UInt8.toNat_ofNat_of_lt' (show c.toNat < 256 by omega)
  rcases toNat_of_mem_utf8EncodeChar h with hsame | ⟨-, hlarge⟩
  · exact Char.ext (UInt32.toNat_inj.mp (hsame.symm.trans hbyte))
  · omega

theorem head?_utf8_eq_iff {s : List Char} {c : Char} (hc : c.toNat < 128) :
    (utf8 s).head? = some (UInt8.ofNat c.toNat) ↔ s.head? = some c := by
  cases s with
  | nil => exact iff_of_false (by simp [utf8]) (by simp)
  | cons d s =>
    rw [utf8_cons, List.head?_append_of_ne_nil _ String.utf8EncodeChar_ne_nil, List.head?_cons,
      Option.some.injEq]
    constructor
    · exact fun h => eq_of_mem_utf8EncodeChar hc (List.mem_of_head? h)
    · rintro rfl
      have hone : utf8 [d] = String.utf8EncodeChar d := List.flatMap_singleton _ _
      rw [← hone, utf8_singleton hc, List.head?_cons]

/-- Where the bytes of a text end with a character of ASCII, the text does. -/
theorem exists_of_utf8_eq_append {s : List Char} {front : List UInt8} {c : Char} (hc : c.toNat < 128)
    (h : utf8 s = front ++ utf8 [c]) : ∃ start, front = utf8 start := by
  rw [utf8_singleton hc] at h
  rcases List.eq_nil_or_concat s with rfl | ⟨start, d, rfl⟩
  · exact absurd h.symm (by simp [utf8])
  · have hend : utf8 [d] = String.utf8EncodeChar d := List.flatMap_singleton _ _
    rw [List.concat_eq_append, utf8_append, hend] at h
    refine ⟨start, ?_⟩
    have hlast : (String.utf8EncodeChar d).getLast? = some (UInt8.ofNat c.toNat) := by
      have hends := congrArg List.getLast? h
      rwa [List.getLast?_concat, List.getLast?_append_of_ne_nil _ String.utf8EncodeChar_ne_nil] at hends
    obtain rfl := eq_of_mem_utf8EncodeChar hc (List.mem_of_getLast? hlast)
    rw [← hend, utf8_singleton hc] at h
    exact (List.append_inj' h rfl).1.symm

theorem exists_of_utf8_eq_append_ascii {s tail : List Char} {front : List UInt8}
    (hascii : ∀ c ∈ tail, c.toNat < 128) (h : utf8 s = front ++ utf8 tail) :
    ∃ start, front = utf8 start := by
  induction tail generalizing front with
  | nil => exact ⟨s, by rw [h]; exact (List.append_nil _).symm⟩
  | cons c tail ih =>
    have hsplit : utf8 s = (front ++ utf8 [c]) ++ utf8 tail := by
      rw [h, List.append_assoc, ← utf8_append]
      rfl
    obtain ⟨start, hstart⟩ := ih (fun d hd => hascii d (List.mem_cons_of_mem _ hd)) hsplit
    exact exists_of_utf8_eq_append (hascii c List.mem_cons_self) hstart.symm

variable {raw : RawText} {s t : String}

namespace RawText

theorem bytes_ofText (s : String) : (ofText s).bytes = utf8 s.toList := by
  rw [ofText, ← toBytes_ofList, String.ofList_toList]

@[simp] theorem text_ofText (s : String) : (ofText s).text = s := by
  have hshown : (s.toList.map Piece.char).map Piece.shown = s.toList := by
    rw [List.map_map]
    exact List.map_id _
  rw [text, pieces, bytes_ofText, spelled_utf8, hshown, String.ofList_toList]

@[simp] theorem text?_ofText (s : String) : (ofText s).text? = some s := by
  rw [text?, bytes_ofText, ofBytes?_utf8, String.ofList_toList]

theorem text?_eq_some_iff : raw.text? = some s ↔ raw = ofText s := by
  constructor
  · intro h
    rw [text?, ofBytes?, String.fromUTF8?] at h
    split at h
    · obtain rfl := Option.some.inj h
      rfl
    · cases h
  · rintro rfl
    exact text?_ofText s

/-- A raw text that spells a text shows as that. -/
theorem text_of_text? (h : raw.text? = some s) : raw.text = s := by
  rw [text?_eq_some_iff.mp h, text_ofText]

theorem ofText_append (s t : String) : ofText (s ++ t) = ofText s ++ ofText t := by
  rw [RawText.ext_iff, bytes_append, bytes_ofText, bytes_ofText, bytes_ofText, String.toList_append,
    utf8_append]

/-- Whether a raw text spells a text does not depend on what ASCII stands at its end. -/
theorem text?_append (h : ∀ c ∈ s.toList, c.toNat < 128) :
    (raw ++ ofText s).text? = raw.text?.map (· ++ s) := by
  cases htext : raw.text? with
  | some t => rw [text?_eq_some_iff.mp htext, ← ofText_append, text?_ofText, Option.map_some]
  | none =>
    rw [Option.map_none, Option.eq_none_iff_forall_not_mem]
    intro whole hwhole
    have hbytes : utf8 whole.toList = raw.bytes ++ utf8 s.toList := by
      rw [← bytes_ofText, ← bytes_ofText, ← text?_eq_some_iff.mp hwhole, bytes_append]
    obtain ⟨start, hstart⟩ := exists_of_utf8_eq_append_ascii h hbytes
    have hraw : raw = ofText (String.ofList start) := by
      rw [RawText.ext_iff, bytes_ofText, String.toList_ofList, hstart]
    rw [hraw, text?_ofText] at htext
    cases htext

/-- What stands after a byte of ASCII shows as a part of the whole. -/
theorem length_text_le {front tail : List UInt8} {byte : UInt8} (hbyte : byte.toNat < 0x80)
    (h : raw.bytes = front ++ byte :: tail) : (mk tail).text.length ≤ raw.text.length := by
  have hnone : Begun.BeyondAscii none := fun begun hbegun => by cases hbegun
  rw [text, text, pieces, pieces, h, spelled_append_ascii hnone hbyte, String.length_ofList,
    String.length_ofList, List.length_map, List.length_map, List.length_append, List.length_cons]
  dsimp only
  omega

end RawText

end Catalog.Text
