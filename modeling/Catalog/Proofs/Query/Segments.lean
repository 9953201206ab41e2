import Catalog.Proofs.Query.Clause
import Catalog.Proofs.Text.Slice

/-! The segments of a query are exactly what stands between its separators, and its clauses are the
segments without the blanks around them. Quoted sections do not cross a separator, so a segment, and a
clause, has the sections that it has in the query. -/

namespace Catalog.Query

open Catalog.Text

/-- For each byte of marked characters whether it stands inside a quoted section. -/
def bytewise (marks : List (Char × Bool)) : List Bool :=
  marks.flatMap fun mark => List.replicate mark.1.utf8Size mark.2

/-- For each byte of a text whether it stands inside a quoted section. -/
def quotedBytes (text : List Char) : List Bool := bytewise (marked text)

variable {before within : Option Char} {text rest query segment : List Char}
  {marks : List (Char × Bool)}

theorem bytewise_cons (mark : Char × Bool) (marks : List (Char × Bool)) :
    bytewise (mark :: marks) = List.replicate mark.1.utf8Size mark.2 ++ bytewise marks := rfl

theorem bytewise_append (marks more : List (Char × Bool)) :
    bytewise (marks ++ more) = bytewise marks ++ bytewise more := List.flatMap_append

@[simp] theorem length_bytewise (marks : List (Char × Bool)) :
    (bytewise marks).length = byteLength (marks.map (·.1)) := by
  induction marks with
  | nil => rfl
  | cons mark marks ih => rw [bytewise_cons, List.length_append, List.length_replicate, ih]; rfl

theorem length_quotedBytes (text : List Char) : (quotedBytes text).length = byteLength text := by
  rw [quotedBytes, length_bytewise, map_fst_marked]

/-- Marks that are all the same take their bytes with them. -/
theorem bytewise_map_const (text : List Char) (quoted : Bool) :
    bytewise (text.map (·, quoted)) = List.replicate (byteLength text) quoted := by
  induction text with
  | nil => rfl
  | cons c text ih => rw [List.map_cons, bytewise_cons, ih, byteLength_cons, List.replicate_append_replicate]

/-! ### The marks of a query -/

theorem map_fst_drop_marked (h : query = text ++ rest) :
    ((marked query).drop text.length).map (·.1) = rest := by
  rw [List.map_drop, map_fst_marked, h, List.drop_left]

/-- The marks of what follows a text depend on it only by the section that is open after it. -/
theorem drop_quotedFrom (before within : Option Char) (text rest : List Char) :
    (quotedFrom before within (text ++ rest)).drop text.length =
      quotedFrom (lastFrom before text) (openAfter before within text rest) rest := by
  induction text generalizing before within with
  | nil => rfl
  | cons c text ih => rw [List.cons_append, quotedFrom_cons, List.length_cons, List.drop_succ_cons, ih]; rfl

theorem drop_marked (text rest : List Char) :
    (marked (text ++ rest)).drop text.length =
      rest.zip (quotedFrom (lastFrom none text) (openAfter none none text rest) rest) := by
  rw [marked, List.zip, List.drop_zipWith, List.drop_left, quotedMask, drop_quotedFrom]

/-- A query is its segments with separators between them, the separators outside of all sections and
each segment with the sections that it has alone. -/
theorem marked_eq_intercalate (query : List Char) :
    marked query = (separator.map (·, false)).intercalate ((segments query).map marked) := by
  induction h : segments query generalizing query with
  | nil => exact absurd h (segmentsOf_ne_nil _)
  | cons first others ih =>
    obtain ⟨-, ⟨rfl, rfl⟩ | ⟨rest, rfl, hopen, rfl⟩⟩ := first_of_segmentsOf (by simp) h
    · simp
    · obtain ⟨next, more, hrest⟩ := List.exists_cons_of_ne_nil (segmentsOf_ne_nil (marked rest))
      have hsegments : segments rest = next :: more := hrest
      rw [← List.append_assoc, marked_append_separator hopen, ih rest rfl, hsegments]
      simp [List.intercalate_cons_cons]

/-- What stands before a part of a joined list and what after it. -/
theorem intercalate_append_cons {α : Type} (glue : List α) (front : List (List α)) (part : List α)
    (back : List (List α)) :
    glue.intercalate (front ++ part :: back) =
      front.flatMap (· ++ glue) ++ part ++ back.flatMap (glue ++ ·) := by
  induction front with
  | nil =>
    induction back generalizing part with
    | nil => simp
    | cons next back ih =>
      rw [List.nil_append, List.intercalate_cons_cons, ← List.nil_append (next :: back), ih]
      simp
  | cons first front ih =>
    obtain ⟨next, more, hmore⟩ := List.exists_cons_of_ne_nil (show front ++ part :: back ≠ [] by simp)
    rw [List.cons_append, hmore, List.intercalate_cons_cons, ← hmore, ih]
    simp

/-- The marks of a segment in its place in the query. -/
theorem marked_of_segments {front back : List (List Char)} (h : segments query = front ++ segment :: back) :
    marked query = front.flatMap (fun part => marked part ++ separator.map (·, false)) ++ marked segment ++
      back.flatMap fun part => separator.map (·, false) ++ marked part := by
  rw [marked_eq_intercalate, h, List.map_append, List.map_cons, intercalate_append_cons]
  simp [List.flatMap_map]

theorem intercalate_segments (query : List Char) : separator.intercalate (segments query) = query := by
  induction h : segments query generalizing query with
  | nil => exact absurd h (segmentsOf_ne_nil _)
  | cons first others ih =>
    obtain ⟨-, ⟨rfl, rfl⟩ | ⟨rest, rfl, -, rfl⟩⟩ := first_of_segmentsOf (by simp) h
    · simp
    · obtain ⟨next, more, hrest⟩ := List.exists_cons_of_ne_nil (segmentsOf_ne_nil (marked rest))
      have hsegments : segments rest = next :: more := hrest
      rw [hsegments, List.intercalate_cons_cons, ← hsegments, ih rest rfl, List.append_assoc]

/-! ### Separators inside a segment -/

theorem isQuote_of_openAfter (hwithin : ∀ q ∈ within, isQuote q) (text rest : List Char) :
    ∀ q ∈ openAfter before within text rest, isQuote q := by
  induction text generalizing before within with
  | nil => exact hwithin
  | cons c text ih => exact ih (isQuote_of_stepQuote hwithin)

/-- A piece of a text without quotes is inside one section or outside of all. -/
theorem exists_plain_marks {front piece back : List Char} (h : text = front ++ piece ++ back)
    (hpiece : ∀ c ∈ piece, ¬isQuote c) :
    ∃ quoted, (marked text).drop front.length =
      piece.map (·, quoted) ++ (marked text).drop (front ++ piece).length := by
  have hquote : ∀ q ∈ openAfter none none front (piece ++ back), isQuote q :=
    isQuote_of_openAfter (by simp) front (piece ++ back)
  obtain ⟨quoted, marks, hmarks⟩ : ∃ quoted marks,
      (marked text).drop front.length = piece.map (·, quoted) ++ marks := by
    rw [h, List.append_assoc, drop_marked]
    cases hopen : openAfter none none front (piece ++ back) with
    | none =>
      refine ⟨false, back.zip (quotedFrom (lastFrom (lastFrom none front) piece) none back), ?_⟩
      rw [quotedFrom_append (openAfter_of_plain hpiece), quotedFrom_of_plain hpiece,
        List.zip_append (by simp), zip_map_const]
    | some quote =>
      have hnot : quote ∉ piece := fun hmem => hpiece quote hmem (hquote quote hopen)
      refine ⟨true, back.zip (quotedFrom (lastFrom (lastFrom none front) piece) (some quote) back), ?_⟩
      rw [quotedFrom_inside hnot, List.zip_append (by simp), zip_map_const]
  refine ⟨quoted, ?_⟩
  rw [List.length_append, ← List.drop_drop, hmarks, List.drop_left' (List.length_map _)]

/-- Where a separator stands in a segment, all of it is quoted. -/
theorem quoted_of_mem_segments (hsegment : segment ∈ segments query) {front back : List Char}
    (h : segment = front ++ separator ++ back) :
    ((marked segment).drop front.length).take separator.length = separator.map (·, true) := by
  have hwhole := uncut_marked.mpr (segments_of_mem hsegment)
  obtain ⟨quoted, hmarks⟩ := exists_plain_marks h not_isQuote_of_mem_separator
  rw [hmarks, List.take_left' (List.length_map _)]
  cases quoted with
  | true => rfl
  | false =>
    -- Outside of a section the separator would end the segment.
    rw [← List.take_append_drop front.length (marked _), hmarks] at hwhole
    exact absurd ⟨false, false, false, false, _, rfl⟩ (uncut_cons.mp hwhole.of_append.2).1

/-! ### Clauses in their query -/

/-- A segment is marked as its clause is, and the blanks around the clause are outside of all
sections. -/
theorem exists_marked_trim (segment : List Char) :
    ∃ lead trail, segment = lead ++ trim segment ++ trail ∧ (∀ c ∈ lead ++ trail, isBlank c) ∧
      marked segment = lead.map (·, false) ++ marked (trim segment) ++ trail.map (·, false) := by
  obtain ⟨lead, trail, heq, hlead, htrail, -⟩ := exists_trim segment
  refine ⟨lead, trail, heq, fun c hc => (List.mem_append.mp hc).elim (hlead c) (htrail c), ?_⟩
  generalize trim segment = clause at heq ⊢
  subst heq
  have hplain : ∀ c ∈ trail, ¬isQuote c := fun c hc => not_isQuote_of_isBlank (htrail c hc)
  have hopen : openAfter none none clause trail = none := openAfter_eq_none_of_plain hplain (by simp)
  rw [List.append_assoc, marked_blank_append hlead, marked_append hopen,
    marked_of_plain fun c hc => not_isQuote_of_isBlank (hlead c hc), quotedFrom_of_plain hplain,
    zip_map_const, List.append_assoc]

/-- A clause stands in the query after the segments before it, their separators, and blanks; the bytes
there are marked as they are in the clause alone. -/
theorem exists_place {front back : List (List Char)} (h : segments query = front ++ segment :: back) :
    ∃ lead trail, segment = lead ++ trim segment ++ trail ∧ (∀ c ∈ lead ++ trail, isBlank c) ∧
      let start := byteLength (front.flatMap (· ++ separator) ++ lead)
      slice query start (start + byteLength (trim segment)) = .ok (trim segment) ∧
        quotedBytes (trim segment) =
          ((quotedBytes query).drop start).take (byteLength (trim segment)) := by
  obtain ⟨lead, trail, heq, hblank, hmarked⟩ := exists_marked_trim segment
  have hquery : query = (front.flatMap (· ++ separator) ++ lead) ++ trim segment ++
      (trail ++ back.flatMap (separator ++ ·)) := by
    rw [← intercalate_segments query, h, intercalate_append_cons]
    conv => lhs; rw [heq]
    simp only [List.append_assoc]
  have hmarks : marked query =
      (front.flatMap (fun part => marked part ++ separator.map (·, false)) ++ lead.map (·, false)) ++
        marked (trim segment) ++
        (trail.map (·, false) ++ back.flatMap fun part => separator.map (·, false) ++ marked part) := by
    rw [marked_of_segments h, hmarked]
    simp only [List.append_assoc]
  have hlength : (bytewise (front.flatMap (fun part => marked part ++ separator.map (·, false)) ++
      lead.map (·, false))).length = byteLength (front.flatMap (· ++ separator) ++ lead) := by
    rw [length_bytewise]
    congr 1
    simp [List.map_flatMap, map_fst_marked, Function.comp_def]
  refine ⟨lead, trail, heq, hblank, ?_, ?_⟩
  · have hslice := slice_append (front.flatMap (· ++ separator) ++ lead) (trim segment)
      (trail ++ back.flatMap (separator ++ ·))
    rwa [← hquery, byteLength_append (front.flatMap _ ++ lead)] at hslice
  · have hclause : (bytewise (marked (trim segment))).length = byteLength (trim segment) :=
      length_quotedBytes (trim segment)
    rw [quotedBytes, quotedBytes, hmarks, bytewise_append, bytewise_append, List.append_assoc,
      List.drop_left' hlength, List.take_left' hclause]

/-- Splitting a query is exact: the segments with separators between them are the query again, and no
separator outside of a section is left in one. And it is local: a clause has the quoted bytes that it has
in the query, and alone is a query of this one clause. -/
theorem clauses_exact_and_local (query : List Char) (h : trim query ≠ []) :
    clauses query = (segments query).map trim ∧
      separator.intercalate (segments query) = query ∧
      marked query = (separator.map (·, false)).intercalate ((segments query).map marked) ∧
      (∀ segment ∈ segments query, ∀ front back, segment = front ++ separator ++ back →
        ((marked segment).drop front.length).take separator.length = separator.map (·, true)) ∧
      (∀ front segment back, segments query = front ++ segment :: back →
        ∃ lead trail, segment = lead ++ trim segment ++ trail ∧ (∀ c ∈ lead ++ trail, isBlank c) ∧
          let start := byteLength (front.flatMap (· ++ separator) ++ lead)
          slice query start (start + byteLength (trim segment)) = .ok (trim segment) ∧
            quotedBytes (trim segment) =
              ((quotedBytes query).drop start).take (byteLength (trim segment))) ∧
      ∀ clause ∈ clauses query, clause ≠ [] → clauses clause = [clause] := by
  refine ⟨?_, intercalate_segments query, marked_eq_intercalate query, ?_, ?_, ?_⟩
  · rw [clauses, if_neg (by simpa using h)]
  · intro segment hsegment front back heq
    exact quoted_of_mem_segments hsegment heq
  · intro front segment back hsegments
    exact exists_place hsegments
  · intro clause hclause hne
    exact clauses_of_mem hclause hne

/-- An apostrophe that quotes nothing, a section that holds a separator, and blanks of another script
around a clause. -/
theorem clauses_of_quoted_separator :
    let query := "é:Tom's AND \u00a0x = 'a AND ü'\u3000".toList
    let clause := "x = 'a AND ü'".toList
    trim query ≠ [] ∧ clauses query = ["é:Tom's".toList, clause] ∧ clauses clause = [clause] ∧
      ∃ start, slice query start (start + 14) = .ok clause ∧
        quotedBytes clause = ((quotedBytes query).drop start).take 14 := by
  have hne : trim "é:Tom's AND \u00a0x = 'a AND ü'\u3000".toList ≠ [] := by decide
  have hsegments : segments "é:Tom's AND \u00a0x = 'a AND ü'\u3000".toList =
      ["é:Tom's".toList] ++ "\u00a0x = 'a AND ü'\u3000".toList :: [] := by decide
  obtain ⟨hclauses, -, -, -, hplace, halone⟩ := clauses_exact_and_local _ hne
  rw [hsegments] at hclauses
  obtain ⟨lead, trail, -, -, hslice, hbytes⟩ := hplace _ _ _ hsegments
  exact ⟨hne, hclauses, halone _ (by rw [hclauses]; decide) (by decide), _, hslice, hbytes⟩

end Catalog.Query
