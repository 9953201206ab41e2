import Catalog.Proofs.Query.Shortcut
import Catalog.Store.Basic

/-! Two ways to write one comparison: by a shortcut, and by the name of what it is about. Both compile to the
same predicate, and so find the same files in every catalog. -/

namespace Catalog.Query

open Catalog.Number Catalog.Text

/-- A way to write a comparison as a shortcut, with an operator in front of the value or without, and the
name and the operator of the same comparison. -/
structure Spelling where
  word : String
  lead : Option Operator
  name : String
  op : Operator

/-- The spellings of comparisons of a normalized number: without an operator it must be equal. -/
def numberSpellings (word name : String) : List Spelling :=
  ⟨word, none, name, .eq⟩ :: leadingOperators.map fun op => ⟨word, some op, name, op⟩

/-- The spellings under the normalized category `normalized`. -/
def spellings : List Spelling :=
  [⟨"camera:", none, "normalized.camera_make", .eq⟩,
   ⟨"make:", none, "normalized.camera_make", .eq⟩,
   ⟨"model:", none, "normalized.camera_model", .like⟩,
   ⟨"lens:", none, "normalized.lens", .like⟩,
   ⟨"format:", none, "normalized.format", .like⟩,
   ⟨"type:", none, "type", .like⟩,
   ⟨"name:", none, "path", .like⟩,
   ⟨"path:", none, "path", .like⟩,
   ⟨"filename:", none, "path", .like⟩,
   ⟨"date:", none, "normalized.date_taken", .like⟩] ++
  numberSpellings "width:" "normalized.width" ++ numberSpellings "height:" "normalized.height"

/-- The operator that a shortcut with or without an operator in front of its value stands for. A size is
read in its own way, and so is a date after an operator. -/
def ShortcutForm.operator? : ShortcutForm → Option Operator → Option Operator
  | .fixed op, none => some op
  | .compared, lead => some (lead.getD .eq)
  | .dated, none => some .like
  | _, _ => none

namespace Spelling

/-- The shortcut and the name are about the same thing, other than the size, and compare it in the same
way. -/
def Sound (spelling : Spelling) (shortcut : Shortcut) : Prop :=
  spelling.word = shortcut.word ∧ shortcut.form.operator? spelling.lead = some spelling.op ∧
    (∀ op ∈ spelling.lead, op ∈ leadingOperators) ∧ spelling.op ≠ .contains ∧
    resolve? "normalized" spelling.name.toList = some (shortcut.field "normalized") ∧
    shortcut.field "normalized" ≠ .file .size ∧
    spelling.name.toList ≠ [] ∧ spelling.name.toList.all isPlain ∧ ':' ∉ spelling.name.toList

instance instDecidableSound (spelling : Spelling) (shortcut : Shortcut) :
    Decidable (spelling.Sound shortcut) := inferInstanceAs (Decidable (_ ∧ _))

theorem exists_sound : ∀ spelling ∈ spellings, ∃ shortcut ∈ shortcuts, spelling.Sound shortcut := by
  decide +kernel

end Spelling

/-! ### Literals -/

variable {value : List Char}

theorem stripQuotes_eq_nil (h : stripQuotes value = []) :
    value = [] ∨ value = ['"', '"'] ∨ value = ['\'', '\''] := by
  unfold stripQuotes at h
  split at h
  · rename_i rest
    split at h
    · rename_i hlast
      have hrest := List.dropLast_append_getLast? _ hlast
      rw [h] at hrest
      exact .inr (.inl (by rw [← hrest]; rfl))
    · cases h
  · rename_i rest
    split at h
    · rename_i hlast
      have hrest := List.dropLast_append_getLast? _ hlast
      rw [h] at hrest
      exact .inr (.inr (by rw [← hrest]; rfl))
    · cases h
  · exact .inl h

theorem isEmpty_verbatim (hne : value ≠ []) (hquotes : value ≠ ['"', '"'] ∧ value ≠ ['\'', '\'']) :
    (Literal.verbatim value).isEmpty = false := by
  have hstrip : stripQuotes value ≠ [] := fun h =>
    (stripQuotes_eq_nil h).elim hne fun h => h.elim hquotes.1 hquotes.2
  simpa [Literal.verbatim, Literal.isEmpty] using hstrip

/-- Whether a literal is a number is settled before anything else. -/
theorem read_eq_number_iff {x : Double} :
    Literal.read value = .number x ↔ Double.read? (trim value) = some x := by
  unfold Literal.read
  dsimp only
  cases Double.read? (trim value) with
  | some number => simp
  | none => cases truth? (trim value) <;> simp [Literal.verbatim]

/-- What a literal is read as: a number, else a truth value, else the text. -/
theorem read_cases (h : Trimmed value) :
    (∃ number, Double.read? value = some number ∧ Literal.read value = .number number) ∨
      Double.read? value = none ∧
        ((∃ truth, truth? value = some truth ∧ Literal.read value = .bool truth) ∨
          truth? value = none ∧ Literal.read value = .verbatim value) := by
  unfold Literal.read
  rw [h.trim_eq]
  dsimp only
  cases Double.read? value with
  | some number => exact .inl ⟨number, rfl, rfl⟩
  | none =>
    refine .inr ⟨rfl, ?_⟩
    cases truth? value with
    | some truth => exact .inl ⟨truth, rfl, rfl⟩
    | none => exact .inr ⟨rfl, rfl⟩

theorem isEmpty_literalFor (htrimmed : Trimmed value) (hne : value ≠ [])
    (hquotes : value ≠ ['"', '"'] ∧ value ≠ ['\'', '\'']) (op : Operator) :
    (literalFor op value).isEmpty = false := by
  unfold literalFor
  split
  · exact isEmpty_verbatim hne hquotes
  · rcases read_cases htrimmed with ⟨_, -, h⟩ | ⟨-, ⟨_, -, h⟩ | ⟨-, h⟩⟩ <;> rw [h]
    · rfl
    · rfl
    · exact isEmpty_verbatim hne hquotes

theorem literalFor_of_mem_leadingOperators {op : Operator} (h : op ∈ leadingOperators) :
    literalFor op value = .read value := by
  have hop : op.isSubstring = false := by
    revert op
    decide
  rw [literalFor, hop]
  rfl

/-- The value of a shortcut is compared by the operator that the shortcut stands for. -/
theorem comparison?_of_operator? {form : ShortcutForm} {lead : Option Operator} {op : Operator}
    (h : form.operator? lead = some op) (hlead : ∀ op ∈ lead, op ∈ leadingOperators)
    (hvalue : Writable value) :
    form.comparison? (leadText lead ++ value) = some (op, literalFor op value) := by
  have htake := hvalue.takeOperator_leadText hlead
  cases form with
  | fixed fixed =>
    cases lead with
    | none =>
      obtain rfl := Option.some.inj h
      rfl
    | some _ => cases h
  | sized => cases h
  | compared =>
    obtain rfl := Option.some.inj h
    have hread : literalFor (lead.getD .eq) value = .read value := by
      cases lead with
      | none => rfl
      | some op => exact literalFor_of_mem_leadingOperators (hlead op rfl)
    rw [hread, ShortcutForm.comparison?, htake]
  | dated =>
    cases lead with
    | none =>
      obtain rfl := Option.some.inj h
      rw [ShortcutForm.comparison?, htake]
      rfl
    | some _ => cases h

/-! ### Spellings of one comparison -/

/-- A shortcut and the comparison that it stands for compile to the same predicate, whatever the value is
and in whatever case the word is written, and find the same files in every catalog. -/
theorem spellings_agree {spelling : Spelling} (hspelling : spelling ∈ spellings) {word : List Char}
    (hword : sameLetters word spelling.word.toList) (hvalue : Writable value)
    (hquotes : value ≠ ['"', '"'] ∧ value ≠ ['\'', '\''])
    (hand : ¬['A', 'N', 'D', ' '] <+: value) :
    let short := String.ofList (shortcutText word spelling.lead value)
    let long := String.ofList (comparisonText spelling.name.toList spelling.op value)
    (∃ field, resolve? "normalized" spelling.name.toList = some field ∧
        compile "normalized" short = ⟨[⟨field, spelling.op, literalFor spelling.op value⟩], 1⟩) ∧
      compile "normalized" short = compile "normalized" long ∧
      ∀ store : Store, store.settings.flatten.normalizedCategory = "normalized" →
        ∀ limit offset, store.search short limit offset = store.search long limit offset := by
  intro short long
  obtain ⟨shortcut, hshortcut, hsame, hop, hlead, hcontains, hresolved, hsize, hname, hplain, hcolon⟩ :=
    Spelling.exists_sound spelling hspelling
  rw [hsame] at hword
  have hnameable : Nameable spelling.name.toList :=
    .of_noColon hname (List.all_eq_true.mp hplain) hcolon
  have hshort : compile "normalized" short =
      ⟨[⟨shortcut.field "normalized", spelling.op, literalFor spelling.op value⟩], 1⟩ := by
    have hpredicate : predicate? "normalized" (shortcutText word spelling.lead value) =
        some ⟨shortcut.field "normalized", spelling.op, literalFor spelling.op value⟩ := by
      rw [hvalue.predicate?_shortcutText hshortcut hword, Shortcut.predicate?,
        comparison?_of_operator? hop hlead hvalue, Option.bind_eq_bind, Option.bind_some]
      simp only [isEmpty_literalFor hvalue.trimmed hvalue.nonempty hquotes, Bool.false_eq_true, if_false]
      rfl
    rw [compile, String.toList_ofList, hvalue.clauses_shortcutText hshortcut hword _ hlead,
      List.filterMap_cons, hpredicate]
    rfl
  have hlong : compile "normalized" long =
      ⟨[⟨shortcut.field "normalized", spelling.op, literalFor spelling.op value⟩], 1⟩ := by
    have hpredicate : predicate? "normalized" (comparisonText spelling.name.toList spelling.op value) =
        some ⟨shortcut.field "normalized", spelling.op, literalFor spelling.op value⟩ := by
      rw [predicate?_comparisonText hnameable hvalue.trimmed hvalue.nonempty
        (hvalue.precedesIn hcontains), hresolved, Option.bind_some,
        literalAgainst?_of_ne_size hsize]
      rfl
    rw [compile, String.toList_ofList, clauses_comparisonText hnameable hvalue.trimmed hvalue.nonempty
      hvalue.uncut hand, List.filterMap_cons, hpredicate]
    rfl
  refine ⟨⟨_, hresolved, hshort⟩, hshort.trans hlong.symm, fun store hcategory limit offset => ?_⟩
  rw [Store.search, Store.search, hcategory, hshort, hlong]

/-- A value that holds a separator and a sign inside quotes, and goes on after them. -/
theorem spellings_agree_around_quotes :
    let value := "'50 AND <= 85' f/1.8".toList
    (⟨"height:", some .ge, "normalized.height", .ge⟩ ∈ spellings ∧
      sameLetters "HeighT:".toList "height:".toList ∧ Writable value ∧
      (value ≠ ['"', '"'] ∧ value ≠ ['\'', '\'']) ∧ ¬['A', 'N', 'D', ' '] <+: value) ∧
    compile "normalized" "HeighT:>='50 AND <= 85' f/1.8" =
      compile "normalized" "normalized.height >= '50 AND <= 85' f/1.8" ∧
    (compile "normalized" "HeighT:>='50 AND <= 85' f/1.8").predicates =
      [⟨.field ⟨"normalized", "height"⟩, .ge, .text "'50 AND <= 85' f/1.8"⟩] := by
  intro value
  have hmem : ⟨"height:", some .ge, "normalized.height", .ge⟩ ∈ spellings :=
    List.mem_append_right _ (List.mem_cons_of_mem _ List.mem_cons_self)
  have hword : sameLetters "HeighT:".toList "height:".toList := by decide
  have hsigns : ((marked value).all fun mark => !isSign mark.1 || mark.2) = true := by decide +kernel
  have hwritable : Writable value :=
    { trimmed := .of_all (by decide) (by decide)
      nonempty := by decide
      signsQuoted := fun mark hmark hsign => by
        simpa [hsign] using List.all_eq_true.mp hsigns mark hmark
      single := by decide +kernel }
  have hquotes : value ≠ ['"', '"'] ∧ value ≠ ['\'', '\''] := by decide
  have hand : ¬['A', 'N', 'D', ' '] <+: value := by decide
  obtain ⟨⟨field, hfield, hcompile⟩, hsame, -⟩ :=
    spellings_agree hmem hword hwritable hquotes hand
  refine ⟨⟨hmem, hword, hwritable, hquotes, hand⟩, hsame, ?_⟩
  obtain rfl : FieldRef.field ⟨"normalized", "height"⟩ = field := Option.some.inj hfield
  exact congrArg Compiled.predicates hcompile

end Catalog.Query
