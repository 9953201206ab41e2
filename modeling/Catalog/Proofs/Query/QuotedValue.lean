import Catalog.Proofs.Query.Comparison

/-! Comparisons with a text in quotes. Whatever the text holds besides the quote around it, such a comparison
can be a clause of any query, and the text itself is its literal. -/

namespace Catalog.Query

open Catalog.Text

/-- In front of every operator and value the name stands for a property of files, other than their size. -/
structure Stands (normalizedCategory : String) (name : List Char) (field : FieldRef) : Prop where
  nameable : Nameable name
  resolved : resolve? normalizedCategory name = some field
  notSize : field ≠ .file .size

theorem Askable.stands {field : FieldKey} (h : Askable field) (normalizedCategory : String) :
    Stands normalizedCategory (fieldName field) (.field field) :=
  ⟨h.nameable, h.resolve?_fieldName _, by simp⟩

theorem stands_path (normalizedCategory : String) :
    Stands normalizedCategory "path".toList (.file .path) :=
  ⟨.of_noColon (by decide) (List.all_eq_true.mp (by decide)) (by decide), rfl, by simp⟩

/-- A text between quotes. -/
def quotedText (quote : Char) (value : List Char) : List Char := quote :: (value ++ [quote])

theorem quotedText_ne_nil (quote : Char) (value : List Char) : quotedText quote value ≠ [] := by
  simp [quotedText]

section Quoted

variable {quote : Char} {value : List Char} (hquote : isQuote quote)
include hquote

theorem trimmed_quotedText : Trimmed (quotedText quote value) := by
  have hlast : (quotedText quote value).getLast? = some quote := List.getLast?_concat (l := quote :: _)
  constructor
  · intro c hc
    exact Option.mem_some_iff.mp hc ▸ isBlank_of_isQuote hquote
  · intro c hc
    rw [hlast, Option.mem_some_iff] at hc
    exact hc ▸ isBlank_of_isQuote hquote

theorem stripQuotes_quotedText : stripQuotes (quotedText quote value) = value := by
  rcases eq_of_isQuote hquote with rfl | rfl <;> simp [quotedText, stripQuotes]

/-- What starts with a quote is neither a number nor a truth value. -/
theorem literalFor_quotedText (op : Operator) :
    literalFor op (quotedText quote value) = .text (String.ofList value) := by
  have hverbatim : Literal.verbatim (quotedText quote value) = .text (String.ofList value) := by
    rw [Literal.verbatim, stripQuotes_quotedText hquote]
  have hnumber : Number.Double.read? (quotedText quote value) = none := by
    rcases eq_of_isQuote hquote with rfl | rfl <;>
      simp [quotedText, Number.Double.read?, Number.Decimal.read?, Number.Decimal.takeSign,
        Number.Decimal.takeFraction]
  have htruth : truth? (quotedText quote value) = none := by
    rcases eq_of_isQuote hquote with rfl | rfl <;>
      simp [quotedText, truth?, sameLetters, lower]
  rw [literalFor]
  split
  · exact hverbatim
  · rw [Literal.read, (trimmed_quotedText hquote).trim_eq, hnumber, htruth, hverbatim]

theorem stepQuote_quote {before : Option Char} (hbefore : startsValue before) {after : List Char}
    (hafter : quote ∈ after) : stepQuote before none quote after = some quote := by
  rw [stepQuote, if_pos (opens_iff.mpr ⟨hquote, hbefore, hafter⟩)]

variable (hvalue : quote ∉ value)
include hvalue

theorem openAfter_quotedText {before : Option Char} (hbefore : startsValue before) (rest : List Char) :
    openAfter before none (quotedText quote value) rest = none := by
  rw [quotedText, openAfter, stepQuote_quote hquote hbefore (by simp), openAfter_append,
    openAfter_inside hvalue, openAfter, stepQuote, if_pos rfl]
  rfl

/-- Exactly the text between the quotes is quoted. -/
theorem marked_quotedText :
    marked (quotedText quote value) = (quote, false) :: (value.map (·, true) ++ [(quote, false)]) := by
  have hquoted : quotedMask (quotedText quote value) = false :: (value.map (fun _ => true) ++ [false]) := by
    rw [quotedMask, quotedText, quotedFrom_cons, stepQuote_quote hquote rfl (by simp),
      quotedFrom_inside hvalue]
    simp [quotedFrom]
  rw [marked, hquoted, quotedText, List.zip_cons_cons, List.zip_append (by simp), zip_map_const]
  rfl

theorem uncut_quotedText : Uncut (marked (quotedText quote value) ++ [(' ', false)]) := by
  have hblank : quote ≠ ' ' := by
    rintro rfl
    cases hquote
  have hlast : Uncut [(' ', false)] := rfl
  have hend : Uncut ([(quote, false)] ++ [(' ', false)]) := hlast.append (by simp [hblank])
  have hwhole : Uncut ([(quote, false)] ++ (value.map (·, true) ++ [(quote, false), (' ', false)])) :=
    (hend.append (by simp)).append (by simp [hblank])
  rw [marked_quotedText hquote hvalue]
  simpa using hwhole

theorem precedesIn_quotedText (op : Operator) : op.precedesIn (quotedText quote value) := by
  intro other _
  rw [marked_quotedText hquote hvalue]
  exact other.findFrom?_quoted hquote _ _

section Clause

variable {name word : List Char} {op : Operator} (hword : upper word = op.symbol)
include hword

/-- A comparison with a quoted text can be a clause of any query. -/
theorem standalone_quoted (hname : Nameable name) :
    Standalone (spelledText name word (quotedText quote value)) where
  trimmed := trimmed_spelledText hname (trimmed_quotedText hquote) (quotedText_ne_nil _ _)
  nonempty := spelledText_ne_nil _ _ _
  closed rest := by
    rw [openAfter_spelledText hname hword]
    exact openAfter_quotedText hquote hvalue rfl rest
  whole := by
    apply uncut_spelledText hname hword (uncut_quotedText hquote hvalue)
    rw [marked_quotedText hquote hvalue]
    rintro ⟨rest, heq⟩
    obtain rfl : 'A' = quote := (List.cons.inj heq).1
    cases hquote

theorem predicate?_quoted {normalizedCategory : String} {field : FieldRef}
    (hname : Stands normalizedCategory name field) :
    predicate? normalizedCategory (spelledText name word (quotedText quote value)) =
      some ⟨field, op, .text (String.ofList value)⟩ := by
  have htrim : trim (quotedText quote value) = quotedText quote value :=
    (trimmed_quotedText hquote).trim_eq
  rw [predicate?_spelledText hname.nameable hword (by rw [htrim]; exact quotedText_ne_nil _ _)
    (precedesIn_quotedText hquote hvalue op), hname.resolved, Option.bind_some, htrim,
    literalAgainst?_of_ne_size hname.notSize, literalFor_quotedText hquote]
  rfl

end Clause

end Quoted

/-- The query that asks for a name by a text in double quotes. -/
def quotedQuery (name word : List Char) (value : String) : String :=
  String.ofList (spelledText name word (quotedText '"' value.toList))

theorem compile_quotedQuery {normalizedCategory : String} {name word : List Char} {field : FieldRef}
    (hname : Stands normalizedCategory name field) {op : Operator} (hword : upper word = op.symbol)
    {value : String} (hvalue : '"' ∉ value.toList) :
    compile normalizedCategory (quotedQuery name word value) = ⟨[⟨field, op, .text value⟩], 1⟩ := by
  have hclauses : clauses (quotedQuery name word value).toList =
      [spelledText name word (quotedText '"' value.toList)] := by
    have hstandalone := standalone_quoted rfl hvalue hword hname.nameable
    rw [quotedQuery, String.toList_ofList]
    simpa using Standalone.clauses_intercalate (List.forall_mem_singleton.mpr hstandalone)
  rw [compile, hclauses, List.filterMap_cons, predicate?_quoted rfl hvalue hword hname,
    String.ofList_toList]
  rfl

end Catalog.Query
