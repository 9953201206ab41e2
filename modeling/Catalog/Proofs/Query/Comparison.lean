import Catalog.Proofs.Query.Clause
import Catalog.Proofs.Text.Ascii
import Catalog.Query.Compile
import Mathlib.Data.List.Basic
import Mathlib.Tactic.ByContra

/-! Comparisons as they are written: a name, an operator in any case and a value with blanks between them.
Whatever the value is, a clause is split at the operator that was written unless an earlier one stands in the
value outside quoted sections. -/

namespace Catalog.Query

open Catalog.Text

/-! ### Characters of names and operators -/

/-- A character that can stand in the name of a written field. -/
def isPlain (c : Char) : Bool :=
  !isBlank c && !isQuote c && c != '<' && c != '>' && c != '='

def isSign (c : Char) : Bool := c == '<' || c == '>' || c == '='

theorem eq_of_isSign {c : Char} (h : isSign c) : c = '<' ∨ c = '>' ∨ c = '=' := by
  simpa [isSign, or_assoc] using h

section Plain

variable {c : Char} (h : isPlain c)
include h

theorem isBlank_of_isPlain : isBlank c = false := by
  simp only [isPlain, Bool.and_eq_true, Bool.not_eq_true'] at h
  exact h.1.1.1.1

theorem not_isQuote_of_isPlain : ¬isQuote c := by
  simp only [isPlain, Bool.and_eq_true, Bool.not_eq_true'] at h
  simp [h.1.1.1.2]

theorem ne_of_isPlain : c ≠ '<' ∧ c ≠ '>' ∧ c ≠ '=' := by
  simp only [isPlain, Bool.and_eq_true, bne_iff_ne] at h
  exact ⟨h.1.1.2, h.1.2, h.2⟩

end Plain

theorem isBlank_of_isAsciiBlank {c : Char} (h : isAsciiBlank c) : isBlank c := by
  simp only [isAsciiBlank, Bool.or_eq_true, beq_iff_eq] at h
  rcases h with (((rfl | rfl) | rfl) | rfl) | rfl <;> decide

theorem eq_of_isQuote {c : Char} (h : isQuote c) : c = '"' ∨ c = '\'' := by
  simpa [isQuote] using h

theorem isBlank_of_isQuote {c : Char} (h : isQuote c) : isBlank c = false := by
  rcases eq_of_isQuote h with rfl | rfl <;> decide

theorem eq_colon_of_toLower {c : Char} (h : c.toLower = ':') : c = ':' := by
  unfold Char.toLower at h
  split at h
  · rename_i hcapital
    have hval : c.val + 32 = 58 := congrArg Char.val h
    have hlow : 65 ≤ c.val := hcapital.1
    grind
  · exact h

namespace Operator

theorem standsAt_eq_false {op : Operator} {before : Option Char} {c : Char} {text : List Char}
    (h : c = ' ' ∨ isQuote c) : op.standsAt before (c :: text) = false := by
  have hc : c = ' ' ∨ c = '"' ∨ c = '\'' := h.imp_right eq_of_isQuote
  rcases hc with rfl | rfl | rfl <;> cases op <;>
    simp [standsAt, isWord, symbol, upper, List.isPrefixOf]

theorem standsAt_take (op : Operator) (before : Option Char) (text : List Char) :
    op.standsAt before (text.take (op.symbol.length + 1)) = op.standsAt before text := by
  rw [standsAt, standsAt]
  split
  · rw [List.take_take, List.head?_drop, List.head?_drop, List.getElem?_take, Nat.min_eq_left (by omega),
      if_pos (Nat.lt_succ_self _)]
  · rw [Bool.eq_iff_iff, List.isPrefixOf_iff_prefix, List.isPrefixOf_iff_prefix,
      List.prefix_take_iff]
    simp

theorem findFrom?_cons (op : Operator) (before : Option Char) (c : Char) (quoted : Bool)
    (rest : List (Char × Bool)) :
    op.findFrom? before ((c, quoted) :: rest) =
      if !quoted && op.standsAt before (c :: rest.map (·.1)) then some []
      else (op.findFrom? (some c) rest).map (c :: ·) := by
  have htake : (c :: rest.map (·.1)).take (op.symbol.length + 1) =
      c :: (rest.take op.symbol.length).map (·.1) := by rw [List.take_succ_cons, List.map_take]
  rw [findFrom?, ← op.standsAt_take before (c :: rest.map (·.1)), htake]

theorem findFrom?_skip {op : Operator} {before : Option Char} {c : Char} {quoted : Bool}
    {rest : List (Char × Bool)}
    (h : quoted ∨ op.standsAt before (c :: rest.map (·.1)) = false) :
    op.findFrom? before ((c, quoted) :: rest) = (op.findFrom? (some c) rest).map (c :: ·) := by
  rw [findFrom?_cons, if_neg]
  rcases h with h | h
  · simp [h]
  · simp [h]

theorem findFrom?_blank (op : Operator) (before : Option Char) (rest : List (Char × Bool)) :
    op.findFrom? before ((' ', false) :: rest) = (op.findFrom? (some ' ') rest).map (' ' :: ·) :=
  findFrom?_skip (.inr (standsAt_eq_false (.inl rfl)))

/-- No operator stands in a quoted text. -/
theorem findFrom?_quoted (op : Operator) {quote : Char} (hquote : isQuote quote)
    (before : Option Char) (value : List Char) :
    op.findFrom? before ((quote, false) :: (value.map (·, true) ++ [(quote, false)])) = none := by
  have hquoted : ∀ before rest, op.findFrom? before ((quote, false) :: rest) =
      (op.findFrom? (some quote) rest).map (quote :: ·) := fun before rest =>
    findFrom?_skip (.inr (standsAt_eq_false (.inr hquote)))
  have hvalue : ∀ before, op.findFrom? before (value.map (·, true) ++ [(quote, false)]) = none := by
    induction value with
    | nil => intro before; exact hquoted before []
    | cons c value ih =>
      intro before
      rw [List.map_cons, List.cons_append, findFrom?_skip (.inl rfl), ih, Option.map_none]
  rw [hquoted, hvalue, Option.map_none]

theorem not_isQuote_of_mem_symbol (op : Operator) : ∀ c ∈ op.symbol, ¬isQuote c := by
  cases op <;> simp [symbol, isQuote]

theorem upper_symbol (op : Operator) : upper op.symbol = op.symbol := by
  cases op <;> decide

theorem upper_take_of_standsAt {op : Operator} {before : Option Char} {text : List Char}
    (h : op.standsAt before text) : upper (text.take op.symbol.length) = op.symbol := by
  rw [standsAt] at h
  split at h
  · simp only [Bool.and_eq_true, beq_iff_eq] at h
    exact h.1.1
  · rw [← List.prefix_iff_eq_take.mp (List.isPrefixOf_iff_prefix.mp h), upper_symbol]

/-- An operator stands in a piece with a blank behind it only as the start of that piece. -/
theorem prefix_of_standsAt {op : Operator} {before : Option Char} {piece rest : List Char}
    (h : op.standsAt before (piece ++ ' ' :: rest)) : op.symbol <+: upper piece := by
  have htake := upper_take_of_standsAt h
  have hshort : op.symbol.length ≤ piece.length := by
    by_contra hlong
    obtain ⟨k, hk⟩ : ∃ k, op.symbol.length - piece.length = k + 1 :=
      ⟨op.symbol.length - piece.length - 1, by omega⟩
    have hblank : ' ' ∈ upper ((piece ++ ' ' :: rest).take op.symbol.length) := by
      rw [List.take_append, hk, List.take_succ_cons, upper, List.map_append]
      simp
    rw [htake] at hblank
    cases op <;> exact absurd hblank (by decide)
  rw [List.take_append_of_le_length hshort, upper, List.map_take, ← upper] at htake
  exact htake ▸ List.take_prefix _ _

/-- An operator that is no part of a piece, in any case, is not found in it. -/
theorem findFrom?_piece {op : Operator} {piece : List Char} {marks : List (Char × Bool)}
    (h : ¬op.symbol <:+: upper piece) (hmarks : op.findFrom? (some ' ') marks = none)
    (before : Option Char) :
    op.findFrom? before (piece.map (·, false) ++ (' ', false) :: marks) = none := by
  induction piece generalizing before with
  | nil => rw [List.map_nil, List.nil_append, findFrom?_blank, hmarks, Option.map_none]
  | cons c piece ih =>
    have hstands : op.standsAt before
        (c :: (piece.map (·, false) ++ (' ', false) :: marks).map (·.1)) = false := by
      by_contra hstands
      have hplain : (piece.map fun c => (c, false)).map (·.1) = piece := by simp [Function.comp_def]
      rw [Bool.not_eq_false, List.map_append, hplain, List.map_cons, ← List.cons_append] at hstands
      exact h (prefix_of_standsAt hstands).isInfix
    rw [List.map_cons, List.cons_append, findFrom?_skip (.inr hstands),
      ih fun hinfix => h (List.infix_cons hinfix), Option.map_none]

section Word

variable {op : Operator} {word : List Char} (hword : upper word = op.symbol)
include hword

theorem length_word : word.length = op.symbol.length := by
  rw [← hword, upper, List.length_map]

theorem toUpper_mem_symbol {c : Char} (hc : c ∈ word) : c.toUpper ∈ op.symbol :=
  hword ▸ List.mem_map_of_mem hc

theorem not_isQuote_of_mem_word : ∀ c ∈ word, ¬isQuote c := by
  intro c hc hquote
  have hmem := toUpper_mem_symbol hword hc
  rcases eq_of_isQuote hquote with rfl | rfl <;> exact op.not_isQuote_of_mem_symbol _ hmem (by decide)

/-- An operator that is no word has one spelling. -/
theorem eq_symbol_of_upper (hop : op.isWord = false) : word = op.symbol := by
  have hletters : op.symbol.all fun c => !c.isLower && !c.isUpper := by
    revert hop
    cases op <;> decide
  refine (upper_eq_iff fun c hc => ?_).mp hword
  simpa using List.all_eq_true.mp hletters c hc

theorem standsAt_of_isWord (hop : op.isWord) (before : Option Char) (rest : List Char) :
    op.standsAt before (word ++ rest) = (before.any isAsciiBlank && rest.head?.any isAsciiBlank) := by
  have hlength := length_word hword
  rw [standsAt, if_pos hop, List.take_left' hlength, List.drop_left' hlength, hword, beq_self_eq_true,
    Bool.true_and]

theorem standsAt_of_not_isWord (hop : op.isWord = false) (before : Option Char) (rest : List Char) :
    op.standsAt before (word ++ rest) := by
  rw [standsAt, if_neg (by simp [hop]), eq_symbol_of_upper hword hop, List.isPrefixOf_iff_prefix]
  exact List.prefix_append _ _

/-- A word spelled like an operator, with blanks around it, is the operator. -/
theorem standsAt_word (rest : List Char) : op.standsAt (some ' ') (word ++ ' ' :: rest) := by
  cases hop : op.isWord with
  | true =>
    rw [standsAt_of_isWord hword hop]
    rfl
  | false => exact standsAt_of_not_isWord hword hop _ _

theorem findFrom?_word (marks : List (Char × Bool)) :
    op.findFrom? (some ' ') (word.map (·, false) ++ (' ', false) :: marks) = some [] := by
  have hstands := standsAt_word hword (marks.map (·.1))
  cases word with
  | nil => cases op <;> cases hword
  | cons c word =>
    rw [List.map_cons, List.cons_append, findFrom?_cons, if_pos]
    simpa [Function.comp_def] using hstands

end Word

/-- No operator that is looked for earlier is a part of the one that is written. -/
theorem not_infix_of_mem_takeWhile {op other : Operator} (h : other ∈ all.takeWhile (· != op)) :
    ¬other.symbol <:+: op.symbol := by
  rw [← occursIn_iff]
  revert other
  cases op <;> decide

theorem all_eq_takeWhile_append (op : Operator) :
    all = all.takeWhile (· != op) ++ op :: (all.dropWhile (· != op)).tail := by
  cases op <;> rfl

/-- An operator that is no word starts with a sign, or with `!` before one. -/
theorem isSign_of_standsAt {op : Operator} (hop : op.isWord = false) {before : Option Char}
    {c : Char} {text : List Char} (h : op.standsAt before (c :: text)) :
    isSign c ∨ c = '!' ∧ '=' ∈ text.head? := by
  have hprefix : op.symbol <+: c :: text := by
    rw [← List.isPrefixOf_iff_prefix]
    simpa [standsAt, hop] using h
  cases op with
  | like => cases hop
  | contains => cases hop
  | ne =>
    obtain ⟨rest, heq⟩ := hprefix
    obtain ⟨rfl, rfl⟩ := List.cons.inj heq
    exact .inr ⟨rfl, rfl⟩
  | ge | le | gt | lt | eq =>
    obtain ⟨rest, heq⟩ := hprefix
    obtain ⟨rfl, -⟩ := List.cons.inj heq
    exact .inl rfl

/-- Outside quoted sections no operator but a word starts in a text whose signs are all quoted. -/
theorem standsAt_of_signsQuoted {op : Operator} (hop : op.isWord = false)
    {before within previous : Option Char} {c : Char} {text more : List Char}
    (h : ∀ mark ∈ (c :: text).zip (quotedFrom before within (c :: text)), isSign mark.1 → mark.2)
    (houtside : within.any (· != c) = false) (hmore : '=' ∉ more.head?) :
    op.standsAt previous (c :: (text ++ more)) = false := by
  rw [quotedFrom_cons, List.zip_cons_cons] at h
  by_contra hstands
  rw [Bool.not_eq_false] at hstands
  rcases isSign_of_standsAt hop hstands with hsign | ⟨rfl, hhead⟩
  · have hquoted := h _ List.mem_cons_self hsign
    rw [houtside] at hquoted
    cases hquoted
  · -- Neither `!` nor what follows it opens a section, so the sign after it is outside too.
    obtain ⟨text, rfl⟩ : ∃ rest, text = '=' :: rest := by
      cases text with
      | nil => exact absurd hhead hmore
      | cons d text => exact ⟨text, by rw [Option.mem_some_iff.mp hhead]⟩
    have hnone : stepQuote before within '!' ('=' :: text) = none := by
      cases within with
      | none => rfl
      | some quote =>
        have hquote : quote = '!' := by simpa using houtside
        rw [stepQuote, if_pos hquote.symm]
    rw [hnone, quotedFrom_cons, List.zip_cons_cons] at h
    have hquoted := h ('=', false) (List.mem_cons_of_mem _ List.mem_cons_self) rfl
    cases hquoted

/-- No operator is found in a text whose signs are all quoted, and a word only if it has blanks. -/
theorem findFrom?_append {op : Operator} {before within previous : Option Char} {text : List Char}
    {more : List (Char × Bool)}
    (h : ∀ mark ∈ text.zip (quotedFrom before within text), isSign mark.1 → mark.2)
    (hblanks : op.isWord → previous.any isAsciiBlank = false ∧ ∀ c ∈ text, isAsciiBlank c = false)
    (hmore : '=' ∉ (more.map (·.1)).head?) :
    op.findFrom? previous (text.zip (quotedFrom before within text) ++ more) =
      (op.findFrom? (lastFrom previous text) more).map (text ++ ·) := by
  induction text generalizing before within previous with
  | nil => simp [lastFrom]
  | cons c text ih =>
    have hsigns := h
    rw [quotedFrom_cons, List.zip_cons_cons] at h ⊢
    rw [List.cons_append, findFrom?_skip, ih, Option.map_map]
    · rfl
    · exact fun mark hmark => h mark (List.mem_cons_of_mem _ hmark)
    · intro hop
      have hafter := (hblanks hop).2
      exact ⟨hafter c List.mem_cons_self, fun d hd => hafter d (List.mem_cons_of_mem _ hd)⟩
    · rw [List.map_append, List.map_fst_zip (Nat.le_of_eq (length_quotedFrom _ _ _).symm),
        or_iff_not_imp_left, Bool.not_eq_true]
      intro houtside
      cases hop : op.isWord with
      | true => simp [standsAt, hop, (hblanks hop).1]
      | false => exact standsAt_of_signsQuoted hop hsigns houtside hmore

/-- Where all signs are quoted no operator but a word is found. -/
theorem findFrom?_eq_none {op : Operator} (hop : op.isWord = false) {before : Option Char}
    {within : Option Char} {text : List Char}
    (h : ∀ mark ∈ text.zip (quotedFrom before within text), isSign mark.1 → mark.2)
    (previous : Option Char) :
    op.findFrom? previous (text.zip (quotedFrom before within text)) = none := by
  have hfind : op.findFrom? previous (text.zip (quotedFrom before within text) ++ []) = none :=
    findFrom?_append h (by simp [hop]) (by simp)
  rwa [List.append_nil] at hfind

/-- No operator starts in a text without blanks whose signs are all quoted, or at the blank after it. -/
theorem findFrom?_unbroken (op : Operator) {text : List Char} (hblanks : ∀ c ∈ text, isBlank c = false)
    (hsigns : ∀ mark ∈ marked text, isSign mark.1 → mark.2) (rest : List (Char × Bool)) :
    op.findFrom? none (marked text ++ (' ', false) :: rest) =
      (op.findFrom? (some ' ') rest).map (text ++ [' '] ++ ·) := by
  have hascii : ∀ c ∈ text, isAsciiBlank c = false := by
    intro c hc
    rw [← Bool.not_eq_true]
    intro hascii
    have hblank := isBlank_of_isAsciiBlank hascii
    rw [hblanks c hc] at hblank
    cases hblank
  rw [marked, quotedMask, findFrom?_append hsigns (fun _ => ⟨rfl, hascii⟩) (by simp), findFrom?_blank,
    Option.map_map]
  simp [Function.comp_def]

end Operator

/-! ### Names -/

section Name

variable {name rest : List Char}

/-- No shortcut is a name, or a longer text, that goes on with a character which no shortcut holds. -/
theorem shortcut?_eq_none {rest : List Char} {stop : Char} (hname : ':' ∉ name)
    (hstop : ∀ shortcut ∈ shortcuts, stop.toLower ∉ lower shortcut.word.toList) :
    shortcut? (name ++ stop :: rest) = none := by
  have hcolons : ∀ shortcut ∈ shortcuts, ':' ∈ lower shortcut.word.toList := by decide +kernel
  refine List.findSome?_eq_none_iff.mpr fun shortcut hmem => if_neg fun hsame => ?_
  have hcolon := hcolons shortcut hmem
  rw [sameLetters, beq_iff_eq] at hsame
  by_cases hlong : name.length < shortcut.word.toList.length
  · have hinside : stop ∈ (name ++ stop :: rest).take shortcut.word.toList.length := by
      obtain ⟨k, hk⟩ := Nat.exists_eq_add_of_lt hlong
      rw [hk, Nat.add_assoc, List.take_length_add_append, List.take_succ_cons]
      simp
    exact hstop shortcut hmem (hsame ▸ List.mem_map.mpr ⟨stop, hinside, rfl⟩)
  · rw [← hsame, List.take_append_of_le_length (Nat.le_of_not_lt hlong)] at hcolon
    obtain ⟨c, hc, hlower⟩ := List.mem_map.mp hcolon
    rw [eq_colon_of_toLower hlower] at hc
    exact hname (List.mem_of_mem_take hc)

/-- A text that can be the name of a comparison: it has no blanks and leaves no quoted section open, its signs
are quoted, and no clause that begins with it is a shortcut. -/
structure Nameable (name : List Char) : Prop where
  nonempty : name ≠ []
  isBlank_eq_false : ∀ c ∈ name, isBlank c = false
  closed : ∀ rest, openAfter none none name rest = none
  signsQuoted : ∀ mark ∈ marked name, isSign mark.1 → mark.2
  noShortcut : ∀ rest, shortcut? (name ++ ' ' :: rest) = none

namespace Nameable

theorem of_plain (hne : name ≠ []) (hplain : ∀ c ∈ name, isPlain c)
    (hshortcut : ∀ rest, shortcut? (name ++ ' ' :: rest) = none) : Nameable name where
  nonempty := hne
  isBlank_eq_false c hc := isBlank_of_isPlain (hplain c hc)
  closed _ := openAfter_of_plain fun c hc => not_isQuote_of_isPlain (hplain c hc)
  signsQuoted mark hmark hsign := by
    have hmem := List.mem_map_of_mem (f := (·.1)) hmark
    rw [map_fst_marked] at hmem
    obtain ⟨hlt, hgt, heq⟩ := ne_of_isPlain (hplain _ hmem)
    simp [isSign, hlt, hgt, heq] at hsign
  noShortcut := hshortcut

theorem of_noColon (hne : name ≠ []) (hplain : ∀ c ∈ name, isPlain c) (hcolon : ':' ∉ name) :
    Nameable name :=
  .of_plain hne hplain fun _ => shortcut?_eq_none hcolon (by decide +kernel)

theorem trimmed (h : Nameable name) : Trimmed name := .of_forall h.isBlank_eq_false

end Nameable

end Name

/-! ### Names of fields -/

/-- The name of a field as it is written: `category.key`. -/
def fieldName (field : FieldKey) : List Char := field.category.toList ++ '.' :: field.key.toList

theorem shortcut?_fieldName {field : FieldKey} (h : ':' ∉ field.category.toList) (rest : List Char) :
    shortcut? (fieldName field ++ ' ' :: rest) = none := by
  rw [fieldName, List.append_assoc, List.cons_append]
  exact shortcut?_eq_none h (by decide +kernel)

/-- A comparison can be about the field: its name is understood in front of every operator and value, and is
not that of a property of files. -/
structure Askable (field : FieldKey) : Prop where
  category : field.category ≠ ""
  key : field.key ≠ ""
  undivided : '.' ∉ field.category.toList
  nameable : Nameable (fieldName field)
  notOfFile : ∀ column : FileColumn,
    sameLetters (fieldName field) ("file.".toList ++ column.name.toList) = false

theorem Askable.resolve?_fieldName {field : FieldKey} (h : Askable field) (normalizedCategory : String) :
    resolve? normalizedCategory (fieldName field) = some (.field field) := by
  have hcategory : field.category.toList.isEmpty = false := by simp [h.category]
  have hkey : field.key.toList.isEmpty = false := by simp [h.key]
  rw [resolve?, fieldName, cut?_append h.undivided]
  simp only [hcategory, hkey, Bool.or_self, Bool.false_eq_true, if_false, String.ofList_toList]
  cases hcolumn : FileColumn.ofName? field.key.toList with
  | none => rfl
  | some column =>
    have hsame : sameLetters field.key.toList column.name.toList := by
      simpa using List.find?_some hcolumn
    have hother : sameLetters field.category.toList "file".toList = false := by
      by_contra hfile
      have hnot := h.notOfFile column
      rw [Bool.not_eq_false, sameLetters, beq_iff_eq] at hfile
      rw [sameLetters, beq_iff_eq] at hsame
      simp [sameLetters, lower, fieldName] at hnot hfile hsame
      simp [hfile, hsame] at hnot
    simp only [hother, Bool.false_eq_true, if_false]

/-- The field can be named in a comparison: neither a shortcut nor a property of files is written so. -/
structure Addressable (field : FieldKey) : Prop where
  category : field.category ≠ ""
  key : field.key ≠ ""
  undivided : '.' ∉ field.category.toList ∧ ':' ∉ field.category.toList
  plain : ∀ c ∈ field.category.toList ++ field.key.toList, isPlain c
  notOfFile : ∀ column : FileColumn,
    sameLetters (fieldName field) ("file.".toList ++ column.name.toList) = false

namespace Addressable

variable {field : FieldKey} (h : Addressable field)
include h

theorem nameable : Nameable (fieldName field) := by
  refine .of_plain (by simp [fieldName]) (fun c hc => ?_) (shortcut?_fieldName h.undivided.2)
  simp only [fieldName, List.mem_append, List.mem_cons] at hc
  rcases hc with hc | rfl | hc
  · exact h.plain c (List.mem_append_left _ hc)
  · decide
  · exact h.plain c (List.mem_append_right _ hc)

theorem askable : Askable field := ⟨h.category, h.key, h.undivided.1, h.nameable, h.notOfFile⟩

end Addressable

/-! ### Comparisons -/

/-- A comparison with its operator in any case: `name word value`. -/
def spelledText (name word value : List Char) : List Char :=
  name ++ [' '] ++ (word ++ [' ']) ++ value

theorem spelledText_ne_nil (name word value : List Char) : spelledText name word value ≠ [] := by
  simp [spelledText]

/-- A comparison as it is written: `name OP value`. -/
def comparisonText (name : List Char) (op : Operator) (value : List Char) : List Char :=
  spelledText name op.symbol value

theorem literalAgainst?_of_ne_size {field : FieldRef} (h : field ≠ .file .size) (op : Operator)
    (value : List Char) : literalAgainst? field op value = some (literalFor op value) := by
  unfold literalAgainst?
  generalize literalFor op value = literal
  split
  · exact absurd rfl h
  · rfl

theorem literalAgainst?_field (key : FieldKey) (op : Operator) (value : List Char) :
    literalAgainst? (.field key) op value = some (literalFor op value) :=
  literalAgainst?_of_ne_size (by simp) op value

/-- No operator that is looked for earlier than this one is found in the text. -/
def Operator.precedesIn (op : Operator) (text : List Char) : Prop :=
  ∀ other ∈ Operator.all.takeWhile (· != op), other.findFrom? (some ' ') (marked text) = none

section Spelled

variable {name word value : List Char} {op : Operator} (hname : Nameable name)
  (hword : upper word = op.symbol)
include hname hword

omit hname in
theorem not_isQuote_of_mem_middle : ∀ c ∈ [' '] ++ (word ++ [' ']), ¬isQuote c := by
  intro c hc
  rw [List.mem_append, List.mem_append] at hc
  rcases hc with hc | hc | hc
  · rw [List.mem_singleton.mp hc]
    decide
  · exact Operator.not_isQuote_of_mem_word hword c hc
  · rw [List.mem_singleton.mp hc]
    decide

omit hname hword in
theorem lastFrom_middle (before : Option Char) : lastFrom before ([' '] ++ (word ++ [' '])) = some ' ' := by
  rw [← List.append_assoc, lastFrom_append]
  rfl

theorem openAfter_spelledText (rest : List Char) :
    openAfter none none (spelledText name word value) rest = openAfter (some ' ') none value rest := by
  rw [spelledText, List.append_assoc name, List.append_assoc name, openAfter_append, hname.closed,
    openAfter_append, openAfter_of_plain (not_isQuote_of_mem_middle hword), lastFrom_middle]

/-- The value has the quoted sections that it has alone. -/
theorem marked_spelledText :
    marked (spelledText name word value) =
      marked name ++ (' ', false) :: (word.map (·, false) ++ (' ', false) :: marked value) := by
  rw [spelledText, List.append_assoc name, marked_append_plain (hname.closed _)
    (not_isQuote_of_mem_middle hword) (by rw [lastFrom_middle]; rfl)]
  simp

/-- No separator is in a comparison, or starts in it, if none is in the value and the value does not
begin with one. -/
theorem uncut_spelledText {more : List (Char × Bool)} (hvalue : Uncut (marked value ++ more))
    (hand : ¬['A', 'N', 'D', ' '] <+: (marked value ++ more).map (·.1)) :
    Uncut (marked (spelledText name word value) ++ more) := by
  obtain ⟨c, rest, rfl⟩ : ∃ c rest, word = c :: rest := by
    apply List.exists_cons_of_ne_nil
    rintro rfl
    cases op <;> cases hword
  have hc : c ≠ 'A' := by
    rintro rfl
    cases op <;> cases hword
  have hoperator : Uncut ((c :: rest).map (·, false) ++ (' ', false) :: (marked value ++ more)) := by
    refine (hvalue.cons_space hand).append fun mark hmark hspace => ?_
    obtain ⟨d, hd, rfl⟩ := List.mem_map.mp hmark
    have hmem := Operator.toUpper_mem_symbol hword hd
    rw [show d = ' ' from hspace] at hmem
    cases op <;> exact absurd hmem (by decide)
  have hplain : ∀ mark ∈ marked name, mark.1 = ' ' → mark.2 := by
    intro mark hmark heq
    have hmem := List.mem_map_of_mem (f := (·.1)) hmark
    rw [map_fst_marked, heq] at hmem
    exact absurd (hname.isBlank_eq_false ' ' hmem) (by decide)
  have hwhole := (hoperator.cons_blank hc).append hplain
  rw [marked_spelledText hname hword, List.map_cons]
  simpa using hwhole

omit hword in
theorem trimmed_spelledText (htrimmed : Trimmed value) (hne : value ≠ []) :
    Trimmed (spelledText name word value) := by
  refine Trimmed.append ?_ (by simp) htrimmed hne
  rw [List.append_assoc, List.head?_append_of_ne_nil _ hname.nonempty]
  exact hname.trimmed.first

/-- A clause is split at the operator that was written. -/
theorem ofClause?_spelledText (hvalue : op.precedesIn value) :
    Split.ofClause? (spelledText name word value) = some ⟨name ++ [' '], op, ' ' :: value⟩ := by
  have hfind : ∀ other : Operator, other.findFrom? none (marked (spelledText name word value)) =
      (other.findFrom? (some ' ') (word.map (·, false) ++ (' ', false) :: marked value)).map
        (name ++ [' '] ++ ·) := by
    intro other
    rw [marked_spelledText hname hword]
    exact other.findFrom?_unbroken hname.isBlank_eq_false hname.signsQuoted _
  have hself : op.findFrom? none (marked (spelledText name word value)) = some (name ++ [' ']) := by
    rw [hfind, Operator.findFrom?_word hword, Option.map_some, List.append_nil]
  have hearlier : ∀ other ∈ Operator.all.takeWhile (· != op),
      other.findFrom? none (marked (spelledText name word value)) = none := by
    intro other hother
    have hpart := Operator.not_infix_of_mem_takeWhile hother
    rw [← hword] at hpart
    rw [hfind, Operator.findFrom?_piece hpart (hvalue other hother), Option.map_none]
  have hdrop : (spelledText name word value).drop ((name ++ [' ']).length + op.symbol.length) =
      ' ' :: value := by
    rw [← Operator.length_word hword, spelledText, ← List.drop_drop, List.append_assoc, List.drop_left,
      List.append_assoc, List.drop_left]
    rfl
  rw [Split.ofClause?, Operator.all_eq_takeWhile_append op, List.findSome?_append,
    List.findSome?_eq_none_iff.mpr fun other hother => by rw [hearlier other hother, Option.map_none],
    List.findSome?_cons, hself, Option.map_some, hdrop]
  rfl

/-- What a comparison means: what its name stands for, compared with the literal of its value. -/
theorem predicate?_spelledText (hne : trim value ≠ []) (hvalue : op.precedesIn value)
    (normalizedCategory : String) :
    predicate? normalizedCategory (spelledText name word value) =
      (resolve? normalizedCategory name).bind fun field =>
        (literalAgainst? field op (trim value)).map fun literal => ⟨field, op, literal⟩ := by
  have hshortcut : shortcut? (spelledText name word value) = none := by
    rw [spelledText, List.append_assoc, List.append_assoc]
    exact hname.noShortcut _
  have hblank : ∀ c ∈ [' '], isBlank c := List.forall_mem_singleton.mpr (by decide)
  have hleft : trim (name ++ [' ']) = name :=
    trim_append (u := []) hname.trimmed hname.nonempty (by simp) hblank
  have hright : trim (' ' :: value) = trim value := trim_cons_of_isBlank (by decide) value
  have hempty : (name.isEmpty || (trim value).isEmpty || name.any isBlank) = false := by
    have hany : name.any isBlank = false := by simpa using hname.isBlank_eq_false
    simp [hany, hname.nonempty, hne]
  rw [predicate?, hshortcut]
  simp only [comparison?, ofClause?_spelledText hname hword hvalue, hleft, hright, hempty,
    Option.bind_eq_bind, Option.bind_some, Option.pure_def, Bool.false_eq_true, if_false]
  cases resolve? normalizedCategory name with
  | none => rfl
  | some field =>
    rw [Option.bind_some, Option.bind_some, Option.map_eq_bind]
    rfl

end Spelled

section Comparison

variable {name value : List Char} {op : Operator} (hname : Nameable name)
include hname

theorem trimmed_comparisonText (htrimmed : Trimmed value) (hne : value ≠ []) :
    Trimmed (comparisonText name op value) := trimmed_spelledText hname htrimmed hne

/-- Blanks after the value are not part of the clause. -/
theorem clauses_comparisonText_append {before after : List Char} (htrimmed : Trimmed value)
    (hne : value ≠ []) (hafter : ∀ c ∈ after, isBlank c)
    (hvalue : Uncut (marked (before ++ value ++ after)))
    (hand : ¬['A', 'N', 'D', ' '] <+: before ++ value ++ after) :
    clauses (comparisonText name op (before ++ value ++ after)) =
      [comparisonText name op (before ++ value)] := by
  have huncut : Uncut (marked (comparisonText name op (before ++ value ++ after)) ++ []) :=
    uncut_spelledText hname op.upper_symbol (by simpa using hvalue)
      (by rwa [List.append_nil, map_fst_marked])
  rw [List.append_nil] at huncut
  have hclause : Trimmed (comparisonText name op (before ++ value)) := by
    rw [comparisonText, spelledText, ← List.append_assoc]
    refine Trimmed.append ?_ (by simp) htrimmed hne
    rw [List.append_assoc, List.append_assoc, List.head?_append_of_ne_nil _ hname.nonempty]
    exact hname.trimmed.first
  have htrim : trim (comparisonText name op (before ++ value ++ after)) =
      comparisonText name op (before ++ value) := by
    have happend := trim_append (u := []) hclause (spelledText_ne_nil _ _ _) (by simp) hafter
    rw [List.nil_append, comparisonText, spelledText, List.append_assoc] at happend
    exact happend
  rw [clauses_of_uncut huncut, htrim]
  rw [htrim]
  exact spelledText_ne_nil _ _ _

theorem clauses_comparisonText (htrimmed : Trimmed value) (hne : value ≠ [])
    (hvalue : Uncut (marked value)) (hand : ¬['A', 'N', 'D', ' '] <+: value) :
    clauses (comparisonText name op value) = [comparisonText name op value] := by
  have hclauses : clauses (comparisonText name op ([] ++ value ++ [])) =
      [comparisonText name op ([] ++ value)] :=
    clauses_comparisonText_append hname htrimmed hne (by simp) (by simpa using hvalue) (by simpa using hand)
  simpa using hclauses

theorem predicate?_comparisonText (htrimmed : Trimmed value) (hne : value ≠ [])
    (hvalue : op.precedesIn value) (normalizedCategory : String) :
    predicate? normalizedCategory (comparisonText name op value) =
      (resolve? normalizedCategory name).bind fun field =>
        (literalAgainst? field op value).map fun literal => ⟨field, op, literal⟩ := by
  have hpredicate := predicate?_spelledText hname op.upper_symbol (by rwa [htrimmed.trim_eq]) hvalue
    normalizedCategory
  rwa [htrimmed.trim_eq] at hpredicate

end Comparison

end Catalog.Query
