import Catalog.Proofs.Query.QuotedValue

/-! Comparisons of fields with quoted texts, written and read: a query that joins any number of them
compiles to exactly these comparisons, whatever the texts hold besides the quote around them. -/

namespace Catalog.Query

open Catalog.Text

/-- A comparison of a field with a text, and the quote that is written around the text. -/
structure FieldTest where
  field : FieldKey
  op : Operator
  value : String
  quote : Char

namespace FieldTest

/-- The comparison as a clause: `category.key OP "value"`. -/
def clause (test : FieldTest) : List Char :=
  spelledText (fieldName test.field) test.op.symbol (quotedText test.quote test.value.toList)

def predicate (test : FieldTest) : Predicate := ⟨.field test.field, test.op, .text test.value⟩

/-- The query that asks for all of the comparisons. -/
def query (tests : List FieldTest) : String :=
  String.ofList (separator.intercalate (tests.map clause))

/-- The comparison can be told from its clause: the name is one of a field, not of a shortcut or of a
property of files, and the text does not hold the quote around it. -/
structure Readable (test : FieldTest) : Prop where
  addressable : Addressable test.field
  quote : isQuote test.quote
  value : test.quote ∉ test.value.toList

/-! ### Clauses -/

namespace Readable

variable {test : FieldTest} (h : test.Readable)
include h

theorem standalone : Standalone test.clause :=
  standalone_quoted h.quote h.value test.op.upper_symbol h.addressable.nameable

theorem predicate?_clause (normalizedCategory : String) :
    predicate? normalizedCategory test.clause = some test.predicate := by
  rw [clause, predicate?_quoted h.quote h.value test.op.upper_symbol (h.addressable.askable.stands _),
    String.ofList_toList]
  rfl

end Readable

end FieldTest

/-- Fields compared with quoted texts: the query that joins any number of such clauses compiles to these
comparisons in order, and no clause is dropped. Each text is in quotes of the kind that it does not
hold. -/
theorem compile_written (normalizedCategory : String) (tests : List FieldTest)
    (h : ∀ test ∈ tests, test.Readable) :
    compile normalizedCategory (FieldTest.query tests) =
        ⟨tests.map FieldTest.predicate, tests.length⟩ ∧
      (compile normalizedCategory (FieldTest.query tests)).dropped = 0 := by
  have hclauses : clauses (FieldTest.query tests).toList = tests.map FieldTest.clause := by
    rw [FieldTest.query, String.toList_ofList]
    refine Standalone.clauses_intercalate fun text htext => ?_
    obtain ⟨test, htest, rfl⟩ := List.mem_map.mp htext
    exact (h test htest).standalone
  have hpredicates : (tests.map FieldTest.clause).filterMap (predicate? normalizedCategory) =
      tests.map FieldTest.predicate := by
    rw [List.filterMap_map, List.filterMap_eq_map_iff_forall_eq_some]
    exact fun test htest => (h test htest).predicate?_clause normalizedCategory
  have hcompile : compile normalizedCategory (FieldTest.query tests) =
      ⟨tests.map FieldTest.predicate, tests.length⟩ := by
    rw [compile, hclauses, hpredicates, List.length_map]
  refine ⟨hcompile, ?_⟩
  rw [hcompile, Compiled.dropped, List.length_map, Nat.sub_self]

/-- Texts that hold separators, operators and the other quote are read back whole. -/
theorem compile_written_around_separators :
    compile "image" "iptc.caption LIKE \"it's AND a.b >= 'c'\" AND exif.note != '\"'" =
      ⟨[⟨.field ⟨"iptc", "caption"⟩, .like, .text "it's AND a.b >= 'c'"⟩,
        ⟨.field ⟨"exif", "note"⟩, .ne, .text "\""⟩], 2⟩ := by
  have hcaption : FieldTest.Readable ⟨⟨"iptc", "caption"⟩, .like, "it's AND a.b >= 'c'", '"'⟩ :=
    ⟨⟨by decide, by decide, by decide, List.all_eq_true.mp (by decide),
      by rintro (_ | _ | _) <;> decide⟩, by decide, by decide⟩
  have hnote : FieldTest.Readable ⟨⟨"exif", "note"⟩, .ne, "\"", '\''⟩ :=
    ⟨⟨by decide, by decide, by decide, List.all_eq_true.mp (by decide),
      by rintro (_ | _ | _) <;> decide⟩, by decide, by decide⟩
  have htests := compile_written "image" [_, _]
    (List.forall_mem_cons.mpr ⟨hcaption, List.forall_mem_singleton.mpr hnote⟩)
  exact htests.1

end Catalog.Query
