import Catalog.Proofs.Query.QuotedValue
import Catalog.Proofs.Store.Comparison
import Catalog.Proofs.Store.Fields
import Catalog.Proofs.Store.Recency

/-! What a field, or the path, compared with a text in quotes finds. Equality asks for the text as it is stored,
and the words for a piece of it in any ASCII case. -/

namespace Catalog

open Catalog.Order Catalog.Query Catalog.Text

namespace Query

/-- One of the words that ask for a piece of text, in any case. -/
def IsSubstringWord (word : List Char) : Prop :=
  ∃ op : Operator, op.isSubstring ∧ upper word = op.symbol

end Query

namespace Tables

variable (tables : Tables)

/-- The file has the text under a field, explicit or derived. -/
def HasText (id : FileId) (field : FieldKey) (text : String) : Prop :=
  get? field (tables.explicitOf id) = some text ∨ get? field (tables.derivedOf id) = some text

/-- Which files a word finds depends neither on the case of the text nor on which word it is. -/
theorem select_substring_congr (field : FieldRef) {op other : Operator} (hop : op.isSubstring)
    (hother : other.isSubstring) {value text : String} (h : sameLetters value.toList text.toList) :
    tables.select [⟨field, op, .text value⟩] = tables.select [⟨field, other, .text text⟩] := by
  have hlower : lower value.toList = lower text.toList := by simpa [sameLetters] using h
  have hsatisfies : tables.satisfies [⟨field, op, .text value⟩] =
      tables.satisfies [⟨field, other, .text text⟩] := by
    funext file
    simp only [satisfies, Predicate.holds, Operand.compares, hop, hother, if_true, Literal.canonical,
      hlower, List.all_cons]
  have hanswers : tables.answers [⟨field, op, .text value⟩] =
      tables.answers [⟨field, other, .text text⟩] := by
    simp only [answers, isEvaluable_singleton, List.any_cons]
    rfl
  rw [select, select, hsatisfies, hanswers]

end Tables

namespace Store

variable {store : Store}

theorem mem_search_quotedQuery {name word : List Char} {field : FieldRef}
    (hname : Stands store.settings.flatten.normalizedCategory name field) {op : Operator}
    (hword : upper word = op.symbol) {value : String} (hvalue : '"' ∉ value.toList) {limit : Nat}
    (hlimit : store.tables.files.length ≤ limit) {file : FileRecord} :
    file ∈ (store.search (quotedQuery name word value) limit 0).files ↔
      file ∈ store.tables.files ∧ ∃ operand ∈ field.operand? file (store.tables.fieldsOf file.id),
        operand.compares op (.text value) := by
  have hpredicates : store.predicates (quotedQuery name word value) = [⟨field, op, .text value⟩] := by
    rw [predicates, compile_quotedQuery hname hword hvalue]
  rw [store.files_search_eq_matching field hpredicates hlimit, mem_matching_iff]

theorem Reachable.mem_operand?_iff (h : store.Reachable) {file : FileRecord} {field : FieldKey}
    {operand : Operand} :
    operand ∈ FieldRef.operand? (.field field) file (store.tables.fieldsOf file.id) ↔
      ∃ text, store.tables.HasText file.id field text ∧ operand = .text text := by
  rw [FieldRef.operand?, Option.mem_def, Option.map_eq_some_iff]
  simp only [Tables.get?_fieldsOf_iff h.consistent.fieldsApart, Tables.HasText, eq_comm]

/-- What comparisons with quoted texts find. The texts are those without a double quote, as these are the
quotes around them. -/
structure FindsQuoted (store : Store) (field : FieldKey) : Prop where
  equal : ∀ value : String, '"' ∉ value.toList → ∀ limit, store.tables.files.length ≤ limit → ∀ file,
    file ∈ (store.search (quotedQuery (fieldName field) ['='] value) limit 0).files ↔
      file ∈ store.tables.files ∧ store.tables.HasText file.id field value
  contains : ∀ word, IsSubstringWord word → ∀ value : String, '"' ∉ value.toList →
    ∀ limit, store.tables.files.length ≤ limit → ∀ file,
      file ∈ (store.search (quotedQuery (fieldName field) word value) limit 0).files ↔
        file ∈ store.tables.files ∧ ∃ text, store.tables.HasText file.id field text ∧
          lower value.toList <:+: lower text.toList
  pathContains : ∀ word, IsSubstringWord word → ∀ value : String, '"' ∉ value.toList →
    ∀ limit, store.tables.files.length ≤ limit → ∀ file,
      file ∈ (store.search (quotedQuery "path".toList word value) limit 0).files ↔
        file ∈ store.tables.files ∧ lower value.toList <:+: lower file.path.toList
  -- Not only the files but all that is reported is the same, on every page.
  anyCase : ∀ name ∈ [fieldName field, "path".toList],
    ∀ word word', IsSubstringWord word → IsSubstringWord word' →
      ∀ value value' : String, '"' ∉ value.toList → sameLetters value.toList value'.toList →
        ∀ limit offset, store.search (quotedQuery name word value) limit offset =
          store.search (quotedQuery name word' value') limit offset
  once : ∀ query limit offset, ((store.search query limit offset).files.map (·.id)).Nodup

theorem Reachable.nodup_id_search (h : store.Reachable) (query : String) (limit offset : Nat) :
    ((store.search query limit offset).files.map (·.id)).Nodup := by
  have hselect : ((store.tables.select (store.predicates query)).map (·.id)).Nodup := by
    rw [select_predicates]
    apply ((sortBy_perm _ _).map _).nodup_iff.mpr
    exact h.consistent.ids.sublist (List.filter_sublist.map _)
  rw [files_search_eq_window]
  exact hselect.sublist (((List.take_sublist _ _).trans (List.drop_sublist _ _)).map _)

/-- A field that a comparison can be about is found by the texts that are stored under it. -/
theorem Reachable.findsQuoted (h : store.Reachable) {field : FieldKey} (hfield : Askable field) :
    store.FindsQuoted field where
  equal value hvalue limit hlimit file := by
    have hword : upper ['='] = Operator.eq.symbol := by decide
    rw [mem_search_quotedQuery (hfield.stands _) hword hvalue hlimit]
    simp only [h.mem_operand?_iff]
    constructor
    · rintro ⟨hfile, operand, ⟨text, htext, rfl⟩, hcompares⟩
      obtain rfl := Operand.compares_eq_text.mp hcompares
      exact ⟨hfile, htext⟩
    · rintro ⟨hfile, htext⟩
      exact ⟨hfile, _, ⟨value, htext, rfl⟩, Operand.compares_eq_text.mpr rfl⟩
  contains word hword value hvalue limit hlimit file := by
    obtain ⟨op, hop, hword⟩ := hword
    rw [mem_search_quotedQuery (hfield.stands _) hword hvalue hlimit]
    simp only [h.mem_operand?_iff]
    constructor
    · rintro ⟨hfile, operand, ⟨text, htext, rfl⟩, hcompares⟩
      exact ⟨hfile, text, htext, (Operand.compares_substring hop).mp hcompares⟩
    · rintro ⟨hfile, text, htext, hinfix⟩
      exact ⟨hfile, _, ⟨text, htext, rfl⟩, (Operand.compares_substring hop).mpr hinfix⟩
  pathContains word hword value hvalue limit hlimit file := by
    obtain ⟨op, hop, hword⟩ := hword
    rw [mem_search_quotedQuery (stands_path _) hword hvalue hlimit, ← Operand.compares_substring hop]
    simp [FieldRef.operand?]
  anyCase name hname word word' hword hword' value value' hvalue hsame limit offset := by
    obtain ⟨ref, hstands⟩ :
        ∃ ref, Stands store.settings.flatten.normalizedCategory name ref := by
      rcases List.mem_pair.mp hname with rfl | rfl
      · exact ⟨_, hfield.stands _⟩
      · exact ⟨_, stands_path _⟩
    obtain ⟨op, hop, hword⟩ := hword
    obtain ⟨other, hother, hword'⟩ := hword'
    have hvalue' : '"' ∉ value'.toList := by
      have hback : sameLetters value'.toList value.toList := by
        rw [sameLetters, beq_iff_eq] at hsame ⊢
        exact hsame.symm
      exact fun hmem => hvalue (mem_of_sameLetters hback (by decide) (by decide) hmem)
    rw [search, search, compile_quotedQuery hstands hword hvalue,
      compile_quotedQuery hstands hword' hvalue']
    simp only [store.tables.select_substring_congr ref hop hother hsame]
    rfl
  once := h.nodup_id_search

set_option maxRecDepth 2000 in
/-- A name with an apostrophe and a colon, a text that looks like a number, and letters beyond ASCII. -/
theorem findsQuoted_beyond_ascii :
    let files : Files.FileTree := ⟨[(["A.jpg"], .file (.sound [1]) 0), (["b"], .file (.sound [1]) 0)]⟩
    let field : FieldKey := ⟨"it's", "a:b!"⟩
    let put := fun now path text => Operation.single <|
      .upsert files now path (.object [("it's", .object [("a:b!", .string text)])]) none none
    let store := (ofTables {} {}).after
      [put "0" "A.jpg" "010", put "1" "b" "<É AND 'x'\x00>"]
    let found := fun name word value =>
      (store.search (quotedQuery name word value) 2 0).files.map (·.path)
    (store.Reachable ∧ Askable field) ∧
      store.FindsQuoted field ∧
      quotedQuery (fieldName field) "Like".toList "x' " = "it's.a:b! Like \"x' \"" ∧
      (found (fieldName field) ['='] "010" = ["A.jpg"] ∧ found (fieldName field) ['='] "10" = []) ∧
      (found (fieldName field) "Contains".toList "É and 'X'\x00" = ["b"] ∧
        found (fieldName field) "LIKE".toList "é" = []) ∧
      found "path".toList "like".toList "a.J" = ["A.jpg"] := by
  intro files field put store found
  have hreachable : store.Reachable := (Reachable.opened {}).after _
  have hname : fieldName field = ['i', 't', '\'', 's', '.', 'a', ':', 'b', '!'] := by decide
  have hplain : (fieldName field).all fun c => !isBlank c && !isSign c := by decide
  have hnameable : Nameable (fieldName field) := by
    refine ⟨by decide, fun c hc => ?_, fun rest => ?_, fun mark hmark hsign => ?_,
      shortcut?_fieldName (by decide)⟩
    · simpa using (Bool.and_eq_true_iff.mp (List.all_eq_true.mp hplain c hc)).1
    · rw [hname]
      rfl
    · have hmem := List.mem_map_of_mem (f := (·.1)) hmark
      rw [map_fst_marked] at hmem
      simpa [hsign] using List.all_eq_true.mp hplain _ hmem
  have hfield : Askable field :=
    ⟨by decide, by decide, by decide, hnameable, by rintro (_ | _ | _) <;> decide⟩
  exact ⟨⟨hreachable, hfield⟩, hreachable.findsQuoted hfield, by decide, by decide +kernel,
    by decide +kernel, by decide +kernel⟩

end Store

end Catalog
