import Catalog.Proofs.Query.ByteScan
import Catalog.Proofs.Query.QuotedValue

/-! Compiling by byte offsets. Every slice that is taken on the way, of a query, a clause or a value,
starts and ends between characters, whatever the characters are, and what is compiled is what the
characters say. -/

namespace Catalog.Query

open Catalog.Text

/-! ### Values -/

/-- The quotes that are taken off a value. -/
def valueQuotes : List Char := ['"', '\'']

/-- The text without one pair of the first of some quotes that is around it, cut by offsets. -/
def unquotedByOffset (text : List Char) : List Char → Reading (List Char)
  | [] => pure text
  | quote :: quotes =>
    if 2 ≤ byteLength text ∧ text.head? = some quote ∧ text.getLast? = some quote then
      slice text 1 (byteLength text - 1)
    else unquotedByOffset text quotes

/-- The literal of a text taken as it is, cut by offsets. -/
def verbatimByOffset (text : List Char) : Reading Literal := do
  let inner ← unquotedByOffset text valueQuotes
  pure (.text (String.ofList inner))

/-- The literal of a text that may be a number or a truth value, cut by offsets. -/
def readByOffset (text : List Char) : Reading Literal :=
  match Number.Double.read? (trim text) with
  | some value => pure (.number value)
  | none =>
    match truth? (trim text) with
    | some value => pure (.bool value)
    | none => verbatimByOffset (trim text)

/-- The literal of a value, cut by offsets. -/
def literalByOffset (op : Operator) (value : List Char) : Reading Literal :=
  if op.isSubstring then verbatimByOffset value else readByOffset value

variable {text inner value clause : List Char} {quote : Char}

theorem slice_quotedText (hquote : isQuote quote) (inner : List Char) :
    slice (quotedText quote inner) 1 (byteLength (quotedText quote inner) - 1) = .ok inner := by
  have hsize := utf8Size_of_isQuote hquote
  have hinner := slice_append [quote] inner [quote]
  rw [byteLength_singleton, hsize, byteLength_append, byteLength_singleton, hsize] at hinner
  have hlength : byteLength (quotedText quote inner) - 1 = 1 + byteLength inner := by
    rw [quotedText, byteLength_cons, byteLength_append, byteLength_singleton, hsize]
    omega
  rw [hlength]
  exact hinner

/-- A quote is around a text that begins and ends with it and is longer than it. -/
theorem isQuoted_iff (hquote : isQuote quote) :
    2 ≤ byteLength text ∧ text.head? = some quote ∧ text.getLast? = some quote ↔
      ∃ inner, text = quotedText quote inner := by
  have hsize := utf8Size_of_isQuote hquote
  constructor
  · rintro ⟨hlength, hhead, hlast⟩
    obtain ⟨rest, rfl⟩ := List.head?_eq_some_iff.mp hhead
    obtain rfl | ⟨inner, last, rfl⟩ := List.eq_nil_or_concat' rest
    · rw [byteLength_singleton, hsize] at hlength
      omega
    · rw [← List.cons_append, List.getLast?_concat, Option.some.injEq] at hlast
      exact ⟨inner, by rw [quotedText, hlast]⟩
  · rintro ⟨inner, rfl⟩
    refine ⟨?_, rfl, List.getLast?_concat (l := quote :: inner)⟩
    rw [quotedText, byteLength_cons, byteLength_append, byteLength_singleton, hsize]
    omega

theorem stripQuotes_of_ne (hdouble : ∀ inner, text ≠ quotedText '"' inner)
    (hsingle : ∀ inner, text ≠ quotedText '\'' inner) : stripQuotes text = text := by
  have hopen (quote : Char) (rest : List Char) (h : rest.getLast? = some quote) :
      ∃ inner, quote :: rest = quotedText quote inner := by
    obtain ⟨inner, rfl⟩ := List.getLast?_eq_some_iff.mp h
    exact ⟨inner, rfl⟩
  unfold stripQuotes
  split
  · rename_i rest
    rw [if_neg]
    intro hlast
    obtain ⟨inner, heq⟩ := hopen '"' rest hlast
    exact hdouble inner heq
  · rename_i rest
    rw [if_neg]
    intro hlast
    obtain ⟨inner, heq⟩ := hopen '\'' rest hlast
    exact hsingle inner heq
  · rfl

theorem unquotedByOffset_eq (text : List Char) :
    unquotedByOffset text valueQuotes = .ok (stripQuotes text) := by
  have hdouble : isQuote '"' := rfl
  have hsingle : isQuote '\'' := rfl
  rw [valueQuotes, unquotedByOffset, unquotedByOffset, unquotedByOffset]
  split
  · rename_i h
    obtain ⟨inner, rfl⟩ := (isQuoted_iff hdouble).mp h
    rw [slice_quotedText hdouble, stripQuotes_quotedText hdouble]
  · rename_i hnotDouble
    split
    · rename_i h
      obtain ⟨inner, rfl⟩ := (isQuoted_iff hsingle).mp h
      rw [slice_quotedText hsingle, stripQuotes_quotedText hsingle]
    · rename_i hnotSingle
      rw [stripQuotes_of_ne fun inner heq => hnotDouble ((isQuoted_iff hdouble).mpr ⟨inner, heq⟩)]
      · rfl
      · exact fun inner heq => hnotSingle ((isQuoted_iff hsingle).mpr ⟨inner, heq⟩)

theorem verbatimByOffset_eq (text : List Char) : verbatimByOffset text = .ok (.verbatim text) := by
  rw [verbatimByOffset, Reading.ok_bind (unquotedByOffset_eq text)]
  rfl

theorem readByOffset_eq (text : List Char) : readByOffset text = .ok (.read text) := by
  rw [readByOffset, Literal.read]
  cases Number.Double.read? (trim text) with
  | some value => rfl
  | none =>
    cases truth? (trim text) with
    | some value => rfl
    | none => exact verbatimByOffset_eq _

theorem literalByOffset_eq (op : Operator) (value : List Char) :
    literalByOffset op value = .ok (literalFor op value) := by
  rw [literalByOffset, literalFor]
  split
  · exact verbatimByOffset_eq value
  · exact readByOffset_eq value

/-! ### Shortcuts -/

/-- The first of some shortcuts that a clause begins with, and its value, cut by offsets. A clause in
which the word would end inside a character does not begin with it. -/
def shortcutAmong (clause : List Char) : List Shortcut → Reading (Option (Shortcut × List Char))
  | [] => pure none
  | shortcut :: others =>
    let word := shortcut.word.toList
    match splitAt? (byteLength word) clause with
    | none => shortcutAmong clause others
    | some (head, _) =>
      if sameLetters head word then do
        let value ← slice clause (byteLength word) (byteLength clause)
        pure (some (shortcut, trim value))
      else shortcutAmong clause others

/-- The operator and the literal of a shortcut's value, cut by offsets. -/
def ShortcutForm.comparisonByOffset (form : ShortcutForm) (value : List Char) :
    Reading (Option (Operator × Literal)) :=
  match form with
  | .fixed op => do
    let literal ← literalByOffset op value
    pure (some (op, literal))
  | .sized =>
    let (op, rest) := takeOperator value
    pure ((size? rest).map fun bytes => (op.getD .eq, .number bytes))
  | .compared => do
    let (op, rest) := takeOperator value
    let literal ← readByOffset rest
    pure (some (op.getD .eq, literal))
  | .dated => do
    let (op, rest) := takeOperator value
    let literal ← verbatimByOffset rest
    pure (some (op.getD .like, literal))

/-- The predicate of a shortcut and its value, cut by offsets. -/
def Shortcut.predicateByOffset (shortcut : Shortcut) (normalizedCategory : String) (value : List Char) :
    Reading (Option Predicate) := do
  match ← shortcut.form.comparisonByOffset value with
  | none => pure none
  | some (op, literal) =>
    if literal.isEmpty then pure none
    else pure (some ⟨shortcut.field normalizedCategory, op, literal⟩)

/-- Letters of the same spelling take the same bytes. -/
theorem byteLength_of_sameLetters {s t : List Char} (h : sameLetters s t) : byteLength s = byteLength t := by
  rw [← byteLength_upper, upper_of_sameLetters h, byteLength_upper]

theorem length_of_sameLetters {s t : List Char} (h : sameLetters s t) : s.length = t.length := by
  have hlower := beq_iff_eq.mp h
  simpa [lower] using congrArg List.length hlower

theorem shortcutAmong_eq (clause : List Char) (among : List Shortcut) :
    shortcutAmong clause among = .ok (among.findSome? fun shortcut =>
      let word := shortcut.word.toList
      if sameLetters (clause.take word.length) word then
        some (shortcut, trim (clause.drop word.length))
      else none) := by
  induction among with
  | nil => rfl
  | cons shortcut among ih =>
    rw [shortcutAmong, List.findSome?_cons]
    dsimp only
    by_cases hword : sameLetters (clause.take shortcut.word.toList.length) shortcut.word.toList
    · have hsplit : splitAt? (byteLength shortcut.word.toList) clause =
          some (clause.take shortcut.word.toList.length, clause.drop shortcut.word.toList.length) :=
        splitAt?_eq_some_iff.mpr ⟨(List.take_append_drop _ _).symm, byteLength_of_sameLetters hword⟩
      have hslice : slice clause (byteLength shortcut.word.toList) (byteLength clause) =
          .ok (clause.drop shortcut.word.toList.length) := by
        have hback := slice_back (clause.take shortcut.word.toList.length)
          (clause.drop shortcut.word.toList.length)
        rwa [List.take_append_drop, byteLength_of_sameLetters hword] at hback
      rw [hsplit, if_pos hword]
      dsimp only
      rw [if_pos hword, Reading.ok_bind hslice]
      rfl
    · rw [if_neg hword]
      split
      · exact ih
      · rename_i head tail hsplit
        obtain ⟨rfl, -⟩ := splitAt?_eq_some_iff.mp hsplit
        rw [if_neg, ih]
        intro hhead
        rw [← length_of_sameLetters hhead, List.take_left] at hword
        exact hword hhead

theorem comparisonByOffset_eq (form : ShortcutForm) (value : List Char) :
    form.comparisonByOffset value = .ok (form.comparison? value) := by
  cases form with
  | fixed op => rw [ShortcutForm.comparisonByOffset, Reading.ok_bind (literalByOffset_eq op value)]; rfl
  | sized => rfl
  | compared => rw [ShortcutForm.comparisonByOffset]; exact Reading.ok_bind (readByOffset_eq _) _
  | dated => rw [ShortcutForm.comparisonByOffset]; exact Reading.ok_bind (verbatimByOffset_eq _) _

theorem Shortcut.predicateByOffset_eq (shortcut : Shortcut) (normalizedCategory : String)
    (value : List Char) :
    shortcut.predicateByOffset normalizedCategory value =
      .ok (shortcut.predicate? normalizedCategory value) := by
  rw [Shortcut.predicateByOffset, Reading.ok_bind (comparisonByOffset_eq shortcut.form value),
    Shortcut.predicate?]
  cases shortcut.form.comparison? value with
  | none => rfl
  | some comparison =>
    obtain ⟨op, literal⟩ := comparison
    cases hempty : literal.isEmpty <;> simp [hempty] <;> rfl

/-! ### Clauses -/

/-- What a property is compared with: a text that is compared with the size of a file is read as a
size. -/
def literalOf? (field : FieldRef) (literal : Literal) : Option Literal :=
  match field, literal with
  | .file .size, .text text => (size? text.toList).map .number
  | _, literal => some literal

/-- The predicate of a clause that is a comparison, cut by offsets. -/
def comparisonByOffset (normalizedCategory : String) (clause : List Char) :
    Reading (Option Predicate) := do
  match ← operatorByOffset clause with
  | none => pure none
  | some (start, stop, op) =>
    let left ← slice clause 0 start
    let right ← slice clause stop (byteLength clause)
    let name := trim left
    let value := trim right
    if name.isEmpty || value.isEmpty || name.any isBlank then pure none
    else
      match resolve? normalizedCategory name with
      | none => pure none
      | some field =>
        let literal ← literalByOffset op value
        pure ((literalOf? field literal).map fun literal => ⟨field, op, literal⟩)

/-- The predicate of a clause, if it can be understood, cut by offsets. -/
def predicateByOffset (normalizedCategory : String) (clause : List Char) : Reading (Option Predicate) :=
  if clause.isEmpty then pure none
  else do
    match ← shortcutAmong clause shortcuts with
    | some (shortcut, value) => shortcut.predicateByOffset normalizedCategory value
    | none => comparisonByOffset normalizedCategory clause

/-- A query compiled by offsets. -/
def compileByOffset (normalizedCategory : String) (query : String) : Reading Compiled := do
  let parts ← clausesByOffset query.toList
  let predicates ← parts.mapM (predicateByOffset normalizedCategory)
  pure ⟨predicates.filterMap id, parts.length⟩

theorem comparisonByOffset_eq_comparison? (normalizedCategory : String) (clause : List Char) :
    comparisonByOffset normalizedCategory clause = .ok (comparison? normalizedCategory clause) := by
  rw [comparisonByOffset, Reading.ok_bind (operatorByOffset_eq clause), comparison?]
  cases hsplit : Split.ofClause? clause with
  | none => rfl
  | some split =>
    obtain ⟨written, hfirst⟩ := Split.isFirst_of_ofClause? hsplit
    rw [Option.map_some]
    dsimp only
    rw [Reading.ok_bind hfirst.slice_left, Reading.ok_bind hfirst.slice_right]
    simp only [Option.bind_eq_bind, Option.bind_some]
    split
    · rfl
    · cases resolve? normalizedCategory (trim split.left) with
      | none => rfl
      | some field =>
        dsimp only
        rw [Reading.ok_bind (literalByOffset_eq split.op (trim split.right))]
        have hagainst : literalAgainst? field split.op (trim split.right) =
            literalOf? field (literalFor split.op (trim split.right)) := rfl
        rw [Option.bind_some, hagainst]
        cases literalOf? field (literalFor split.op (trim split.right)) <;> rfl

theorem predicateByOffset_eq (normalizedCategory : String) (clause : List Char) :
    predicateByOffset normalizedCategory clause = .ok (predicate? normalizedCategory clause) := by
  cases clause with
  | nil => rfl
  | cons c rest =>
    have hshortcut : shortcutAmong (c :: rest) shortcuts = .ok (shortcut? (c :: rest)) :=
      shortcutAmong_eq (c :: rest) shortcuts
    rw [predicateByOffset, List.isEmpty_cons, if_neg (by decide), Reading.ok_bind hshortcut, predicate?]
    cases shortcut? (c :: rest) with
    | none => exact comparisonByOffset_eq_comparison? _ _
    | some found => exact found.1.predicateByOffset_eq _ _

theorem compileByOffset_eq (normalizedCategory : String) (query : String) :
    compileByOffset normalizedCategory query = .ok (compile normalizedCategory query) := by
  have hpure : predicateByOffset normalizedCategory =
      fun clause => pure (predicate? normalizedCategory clause) :=
    funext (predicateByOffset_eq normalizedCategory)
  rw [compileByOffset, Reading.ok_bind (clausesByOffset_eq _), hpure, List.mapM_pure, compile]
  simp [List.filterMap_map]
  rfl

/-- A clause is split at the operator that is first in the list of those outside of its sections, where
that one stands first; both offsets are places between characters. And compiling a query of any
characters takes no slice that is not at such places. -/
theorem splits_first_and_slices_safely :
    (∀ clause, Split.ofClause? clause = none ↔
      ∀ op left written right, ¬Operator.Occurrence op clause left written right) ∧
    (∀ clause split, Split.ofClause? clause = some split →
      ∃ written, split.IsFirst clause written ∧ split.start < split.stop ∧
        split.stop ≤ byteLength clause ∧
        String.Pos.Raw.IsValid (String.ofList clause) ⟨split.start⟩ ∧
        String.Pos.Raw.IsValid (String.ofList clause) ⟨split.stop⟩ ∧
        slice clause split.start split.stop = .ok written) ∧
    (∀ clause, operatorByOffset clause =
      .ok ((Split.ofClause? clause).map fun split => (split.start, split.stop, split.op))) ∧
    ∀ normalizedCategory query,
      compileByOffset normalizedCategory query = .ok (compile normalizedCategory query) := by
  refine ⟨fun clause => Split.ofClause?_eq_none_iff, ?_, operatorByOffset_eq, compileByOffset_eq⟩
  intro clause split h
  obtain ⟨written, hfirst⟩ := Split.isFirst_of_ofClause? h
  exact ⟨written, hfirst, hfirst.start_lt_stop, hfirst.stop_le, hfirst.isValid.1, hfirst.isValid.2,
    hfirst.slice_eq⟩

/-- The sign of the value is quoted, so the word before it splits the clause, next to characters of more
than one byte. -/
theorem splits_at_word_before_quoted_sign :
    let clause := "größe.é LiKe '>ü'".toList
    let split : Split := ⟨"größe.é ".toList, .like, " '>ü'".toList⟩
    Split.ofClause? clause = some split ∧
      (∃ written, upper written = "LIKE".toList ∧ slice clause 11 15 = .ok written) ∧
      compileByOffset "normalized" "größe.é LiKe '>ü'" =
        .ok ⟨[⟨.field ⟨"größe", "é"⟩, .like, .text ">ü"⟩], 1⟩ := by
  have hsplit : Split.ofClause? "größe.é LiKe '>ü'".toList =
      some ⟨"größe.é ".toList, .like, " '>ü'".toList⟩ := by decide +kernel
  obtain ⟨-, hfirst, -, hcompile⟩ := splits_first_and_slices_safely
  obtain ⟨written, hwritten, -, -, -, -, hslice⟩ := hfirst _ _ hsplit
  have hstart : byteLength "größe.é ".toList = 11 := by decide +kernel
  have hstop : byteLength "größe.é ".toList + byteLength Operator.like.symbol = 15 := by decide +kernel
  rw [Split.stop, Split.start, hstop, hstart] at hslice
  exact ⟨hsplit, ⟨written, hwritten.occurs.spelled, hslice⟩,
    (hcompile _ _).trans (congrArg _ (by decide +kernel))⟩

end Catalog.Query
