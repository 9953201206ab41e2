import Catalog.Proofs.Query.Quotes
import Catalog.Proofs.Text.Blank
import Catalog.Query.Clause
import Mathlib.Logic.Basic

/-! The clauses of a query stand on their own: read alone, each of them is one clause, the same one. And
texts that can stand on their own are the clauses of the query that joins them. -/

namespace Catalog.Query

open Catalog.Text

/-- A separator starts here, outside quoted sections. -/
def AtCut (marks : List (Char × Bool)) : Prop :=
  ∃ a n d e rest, marks = (' ', false) :: ('A', a) :: ('N', n) :: ('D', d) :: (' ', e) :: rest

theorem segmentsOf_cut {marks : List (Char × Bool)} (h : AtCut marks) :
    segmentsOf marks = [] :: segmentsOf (marks.drop separator.length) := by
  obtain ⟨a, n, d, e, rest, rfl⟩ := h
  rfl

theorem segmentsOf_cons {mark : Char × Bool} {marks : List (Char × Bool)} {segment : List Char}
    {segments : List (List Char)} (hcut : ¬AtCut (mark :: marks))
    (h : segmentsOf marks = segment :: segments) :
    segmentsOf (mark :: marks) = (mark.1 :: segment) :: segments := by
  obtain ⟨c, quoted⟩ := mark
  rw [segmentsOf, h]
  rintro a n d e rest rfl rfl rfl
  exact hcut ⟨a, n, d, e, rest, rfl⟩

theorem segmentsOf_ne_nil (marks : List (Char × Bool)) : segmentsOf marks ≠ [] := by
  cases marks with
  | nil => simp [segmentsOf]
  | cons mark marks =>
    by_cases hcut : AtCut (mark :: marks)
    · simp [segmentsOf_cut hcut]
    · cases hrest : segmentsOf marks with
      | nil => exact absurd hrest (segmentsOf_ne_nil marks)
      | cons segment segments => simp [segmentsOf_cons hcut hrest]

theorem segmentsOf_of_cons {mark : Char × Bool} {marks : List (Char × Bool)} {segment : List Char}
    {segments : List (List Char)} (hcut : ¬AtCut (mark :: marks))
    (h : segmentsOf (mark :: marks) = segment :: segments) :
    ∃ rest, segment = mark.1 :: rest ∧ segmentsOf marks = rest :: segments := by
  cases hrest : segmentsOf marks with
  | nil => exact absurd hrest (segmentsOf_ne_nil marks)
  | cons first others =>
    rw [segmentsOf_cons hcut hrest, List.cons.injEq] at h
    exact ⟨first, h.1.symm, by rw [h.2]⟩

theorem AtCut.append {marks : List (Char × Bool)} (h : AtCut marks) (more : List (Char × Bool)) :
    AtCut (marks ++ more) := by
  obtain ⟨a, n, d, e, rest, rfl⟩ := h
  exact ⟨a, n, d, e, rest ++ more, rfl⟩

/-- No separator is in the marked text. -/
def Uncut (marks : List (Char × Bool)) : Prop := segmentsOf marks = [marks.map (·.1)]

theorem uncut_nil : Uncut [] := rfl

theorem uncut_cons {mark : Char × Bool} {marks : List (Char × Bool)} :
    Uncut (mark :: marks) ↔ ¬AtCut (mark :: marks) ∧ Uncut marks := by
  constructor
  · intro h
    have hcut : ¬AtCut (mark :: marks) := by
      intro hcut
      rw [Uncut, segmentsOf_cut hcut, List.cons.injEq] at h
      exact segmentsOf_ne_nil _ h.2
    obtain ⟨rest, hfirst, hrest⟩ := segmentsOf_of_cons hcut h
    rw [List.map_cons, List.cons.injEq] at hfirst
    exact ⟨hcut, by rw [Uncut, hrest, hfirst.2]⟩
  · rintro ⟨hcut, hrest⟩
    exact segmentsOf_cons hcut hrest

theorem Uncut.of_append {marks more : List (Char × Bool)} (h : Uncut (marks ++ more)) :
    Uncut marks ∧ Uncut more := by
  induction marks with
  | nil => exact ⟨uncut_nil, h⟩
  | cons mark marks ih =>
    obtain ⟨hcut, hrest⟩ := uncut_cons.mp h
    obtain ⟨hmarks, hmore⟩ := ih hrest
    exact ⟨uncut_cons.mpr ⟨fun hcut' => hcut (hcut'.append more), hmarks⟩, hmore⟩

/-- A separator starts with a blank outside quoted sections. -/
theorem Uncut.append {marks more : List (Char × Bool)} (h : Uncut more)
    (hmarks : ∀ mark ∈ marks, mark.1 = ' ' → mark.2) : Uncut (marks ++ more) := by
  induction marks with
  | nil => exact h
  | cons mark marks ih =>
    refine uncut_cons.mpr ⟨?_, ih fun other hother => hmarks other (List.mem_cons_of_mem _ hother)⟩
    rintro ⟨a, n, d, e, rest, heq⟩
    rw [List.cons.injEq] at heq
    have hinside := hmarks mark List.mem_cons_self
    simp [heq.1] at hinside

theorem Uncut.cons_blank {mark : Char × Bool} {marks : List (Char × Bool)}
    (h : Uncut (mark :: marks)) (hmark : mark.1 ≠ 'A') : Uncut ((' ', false) :: mark :: marks) := by
  refine uncut_cons.mpr ⟨?_, h⟩
  rintro ⟨a, n, d, e, rest, heq⟩
  simp only [List.cons.injEq] at heq
  exact hmark (by rw [heq.2.1])

/-- A separator holds an `A`. -/
theorem uncut_of_not_mem {marks : List (Char × Bool)} (h : 'A' ∉ marks.map (·.1)) : Uncut marks := by
  induction marks with
  | nil => exact uncut_nil
  | cons mark marks ih =>
    refine uncut_cons.mpr ⟨?_, ih fun hmem => h (List.mem_cons_of_mem _ hmem)⟩
    rintro ⟨a, n, d, e, rest, heq⟩
    rw [heq] at h
    exact h (List.mem_cons_of_mem _ List.mem_cons_self)

/-- A separator starts at a blank only where the text after it starts like the rest of one. -/
theorem Uncut.cons_space {marks : List (Char × Bool)} (h : Uncut marks)
    (hand : ¬['A', 'N', 'D', ' '] <+: marks.map (·.1)) : Uncut ((' ', false) :: marks) := by
  refine uncut_cons.mpr ⟨?_, h⟩
  rintro ⟨a, n, d, e, rest, heq⟩
  obtain ⟨-, rfl⟩ := List.cons.inj heq
  exact hand ⟨rest.map (·.1), rfl⟩

/-- After marks that would not even be cut by a separator reaching into what follows them, a separator
ends the segment. -/
theorem segmentsOf_append_separator {marks rest : List (Char × Bool)}
    (h : Uncut (marks ++ [(' ', false)])) :
    segmentsOf (marks ++ separator.map (·, false) ++ rest) =
      marks.map (·.1) :: segmentsOf rest := by
  induction marks with
  | nil => rfl
  | cons mark marks ih =>
    obtain ⟨hcut, hmarks⟩ := uncut_cons.mp h
    refine segmentsOf_cons (fun hlong => hcut ?_) (ih hmarks)
    -- A separator that starts in the marks ends in them or with the first blank after them.
    obtain ⟨a, n, d, e, tail, heq⟩ := hlong
    rcases marks with _ | ⟨m₁, _ | ⟨m₂, _ | ⟨m₃, _ | ⟨m₄, marks⟩⟩⟩⟩ <;>
      simp [separator] at heq
    · exact ⟨a, n, d, false, [], by simp [heq]⟩
    · exact ⟨a, n, d, e, marks ++ [(' ', false)], by simp [heq]⟩

/-! ### Marks of texts -/

section Marks

variable {text rest : List Char}

theorem map_fst_marked (text : List Char) : (marked text).map (·.1) = text := by
  rw [marked, List.map_fst_zip (Nat.le_of_eq (length_quotedMask text).symm)]

theorem uncut_marked : Uncut (marked text) ↔ segments text = [text] := by
  rw [Uncut, map_fst_marked, segments]

theorem zip_map_const (text : List Char) (quoted : Bool) :
    text.zip (text.map fun _ => quoted) = text.map (·, quoted) := by
  induction text with
  | nil => rfl
  | cons c text ih => rw [List.map_cons, List.zip_cons_cons, ih, List.map_cons]

theorem marked_of_plain (h : ∀ c ∈ text, ¬isQuote c) : marked text = text.map (·, false) := by
  rw [marked, quotedMask, quotedFrom_of_plain h, zip_map_const]

theorem marked_append (h : openAfter none none text rest = none) :
    marked (text ++ rest) =
      marked text ++ rest.zip (quotedFrom (lastFrom none text) none rest) := by
  rw [marked, quotedMask, quotedFrom_append h, List.zip_append (length_quotedFrom none none text).symm]
  rfl

/-- After a text without quotes where a value can start, the rest has the sections that it has alone. -/
theorem quotedFrom_plain_append {before : Option Char} (h : ∀ c ∈ text, ¬isQuote c)
    (hstarts : startsValue (lastFrom before text)) (rest : List Char) :
    quotedFrom before none (text ++ rest) = text.map (fun _ => false) ++ quotedMask rest := by
  have hstart : startsValue (lastFrom before text) = startsValue none := hstarts
  rw [quotedFrom_append (openAfter_of_plain h), quotedFrom_of_plain h, quotedFrom_congr hstart]
  rfl

theorem marked_append_plain {middle : List Char} (h : openAfter none none text (middle ++ rest) = none)
    (hmiddle : ∀ c ∈ middle, ¬isQuote c) (hstarts : startsValue (lastFrom (lastFrom none text) middle)) :
    marked (text ++ middle ++ rest) = marked text ++ middle.map (·, false) ++ marked rest := by
  rw [List.append_assoc, marked_append h, quotedFrom_plain_append hmiddle hstarts, List.zip_append (by simp),
    zip_map_const, List.append_assoc]
  rfl

theorem marked_plain_append (h : ∀ c ∈ text, ¬isQuote c) (hstarts : startsValue (lastFrom none text)) :
    marked (text ++ rest) = text.map (·, false) ++ marked rest := by
  rw [marked, quotedMask, quotedFrom_plain_append h hstarts, List.zip_append (by simp), zip_map_const]
  rfl

theorem not_isQuote_of_mem_separator : ∀ c ∈ separator, ¬isQuote c := by
  simp [separator, isQuote]

theorem quotedFrom_separator (before : Option Char) (rest : List Char) :
    quotedFrom before none (separator ++ rest) = separator.map (fun _ => false) ++ quotedMask rest :=
  quotedFrom_plain_append not_isQuote_of_mem_separator rfl rest

theorem marked_append_separator (h : openAfter none none text (separator ++ rest) = none) :
    marked (text ++ separator ++ rest) =
      marked text ++ separator.map (·, false) ++ marked rest :=
  marked_append_plain h not_isQuote_of_mem_separator rfl

theorem not_isQuote_of_isBlank {c : Char} (h : isBlank c) : ¬isQuote c := by
  intro hquote
  simp only [isQuote, Bool.or_eq_true, beq_iff_eq] at hquote
  rcases hquote with rfl | rfl <;> exact absurd h (by decide)

theorem startsValue_lastFrom {before : Option Char} (hbefore : startsValue before)
    (h : ∀ c ∈ text, isBlank c) : startsValue (lastFrom before text) := by
  induction text generalizing before with
  | nil => exact hbefore
  | cons c text ih =>
    refine ih ?_ fun d hd => h d (List.mem_cons_of_mem _ hd)
    simp [startsValue, h c List.mem_cons_self]

theorem marked_blank_append (h : ∀ c ∈ text, isBlank c) :
    marked (text ++ rest) = marked text ++ marked rest := by
  have hplain : ∀ c ∈ text, ¬isQuote c := fun c hc => not_isQuote_of_isBlank (h c hc)
  rw [marked_plain_append hplain (startsValue_lastFrom rfl h), marked_of_plain hplain]

end Marks

/-! ### The segments of a query -/

/-- The first segment of a text is whole when alone, and the others, if any, are those of the text after
it. -/
theorem first_of_segmentsOf {before within : Option Char} {text first : List Char}
    {others : List (List Char)} (hwithin : ∀ q ∈ within, isQuote q)
    (h : segmentsOf (text.zip (quotedFrom before within text)) = first :: others) :
    segmentsOf (first.zip (quotedFrom before within first)) = [first] ∧
      (others = [] ∧ first = text ∨
        ∃ rest, text = first ++ (separator ++ rest) ∧
          openAfter before within first (separator ++ rest) = none ∧ others = segments rest) := by
  induction text generalizing before within first with
  | nil =>
    rw [List.zip_nil_left, segmentsOf, List.cons.injEq] at h
    obtain ⟨rfl, rfl⟩ := h
    exact ⟨rfl, .inl ⟨rfl, rfl⟩⟩
  | cons c text ih =>
    have hmarks := h
    rw [quotedFrom_cons, List.zip_cons_cons] at h
    by_cases hcut : AtCut ((c, within.any (· != c)) ::
        text.zip (quotedFrom (some c) (stepQuote before within c text) text))
    · obtain ⟨a, n, d, e, tail, heq⟩ := hcut
      simp only [List.cons.injEq, Prod.mk.injEq] at heq
      obtain ⟨⟨rfl, houtside⟩, htail⟩ := heq
      -- A section is not closed by the blank of a separator, so none is open before it.
      obtain rfl : within = none := by
        cases within with
        | none => rfl
        | some quote =>
          obtain rfl : quote = ' ' := by simpa using houtside
          exact absurd (hwithin ' ' rfl) (by decide)
      have htext : ' ' :: text = separator ++ tail.map (·.1) := by
        have := congrArg (List.map (·.1)) htail
        rw [List.map_fst_zip (Nat.le_of_eq (length_quotedFrom _ _ text).symm)] at this
        rw [this]
        rfl
      have hsegments : segmentsOf (separator.zip (separator.map fun _ => false) ++
          marked (tail.map (·.1))) = [] :: segments (tail.map (·.1)) := rfl
      rw [htext, quotedFrom_separator, List.zip_append (by simp)] at hmarks
      obtain ⟨rfl, rfl⟩ := List.cons.inj (hsegments.symm.trans hmarks)
      exact ⟨rfl, .inr ⟨_, htext, rfl, rfl⟩⟩
    · obtain ⟨first, rfl, hrest⟩ := segmentsOf_of_cons hcut h
      obtain ⟨hwhole, hcases⟩ := ih (isQuote_of_stepQuote hwithin) hrest
      rcases hcases with ⟨rfl, rfl⟩ | ⟨rest, rfl, hopen, rfl⟩
      · exact ⟨hmarks, .inl ⟨rfl, rfl⟩⟩
      · refine ⟨?_, .inr ⟨rest, rfl, hopen, rfl⟩⟩
        -- The quotes of the segment are closed in it, so alone it is marked as in the text.
        rw [quotedFrom_append hopen, stepQuote_append hopen,
          List.zip_append (length_quotedFrom _ _ _).symm] at hcut
        rw [stepQuote_append hopen] at hwhole
        rw [quotedFrom_cons, List.zip_cons_cons]
        exact segmentsOf_cons (fun hcut' => hcut (hcut'.append _)) hwhole

/-- Every segment of a text is whole when alone. -/
theorem segments_of_mem {query segment : List Char} (h : segment ∈ segments query) :
    segments segment = [segment] := by
  induction hquery : segments query generalizing query with
  | nil => exact absurd hquery (segmentsOf_ne_nil _)
  | cons first others ih =>
    obtain ⟨hwhole, hothers⟩ := first_of_segmentsOf (by simp) hquery
    rw [hquery, List.mem_cons] at h
    rcases h with rfl | h
    · exact hwhole
    · rcases hothers with ⟨rfl, -⟩ | ⟨rest, -, -, rfl⟩
      · simp at h
      · exact ih h rfl

theorem segments_trim {text : List Char} (h : segments text = [text]) :
    segments (trim text) = [trim text] := by
  obtain ⟨u, v, htext, hu, hv, -⟩ := exists_trim text
  generalize trim text = middle at htext ⊢
  subst htext
  have hv' : ∀ c ∈ v, ¬isQuote c := fun c hc => not_isQuote_of_isBlank (hv c hc)
  have hopen : openAfter none none middle v = none := openAfter_eq_none_of_plain hv' (by simp)
  rw [← uncut_marked, List.append_assoc, marked_blank_append hu, marked_append hopen] at h
  exact uncut_marked.mp h.of_append.2.of_append.1

/-! ### The clauses of a query -/

/-- A clause of a query, alone, is a query of this one clause. -/
theorem clauses_of_mem {query clause : List Char} (h : clause ∈ clauses query) (hne : clause ≠ []) :
    clauses clause = [clause] := by
  rw [clauses] at h
  split at h
  · simp at h
  · obtain ⟨segment, hsegment, rfl⟩ := List.mem_map.mp h
    have hwhole := segments_trim (segments_of_mem hsegment)
    rw [clauses, trim_trim, if_neg (by simpa using hne), hwhole, List.map_singleton, trim_trim]

theorem clauses_of_uncut {query : List Char} (h : Uncut (marked query)) (hne : trim query ≠ []) :
    clauses query = [trim query] := by
  rw [clauses, if_neg (by simpa using hne), uncut_marked.mp h, List.map_singleton]

theorem clauses_eq_singleton {text : List Char} (htrimmed : Trimmed text) (hne : text ≠ [])
    (h : Uncut (marked text)) : clauses text = [text] := by
  rw [clauses_of_uncut h (by rwa [htrimmed.trim_eq]), htrimmed.trim_eq]

/-- A query of one clause holds no separator. -/
theorem uncut_of_clauses {query : List Char} (h : (clauses query).length = 1) :
    Uncut (marked query) := by
  rw [uncut_marked]
  cases hsegments : segments query with
  | nil => exact absurd hsegments (segmentsOf_ne_nil _)
  | cons first others =>
    rw [clauses, hsegments] at h
    split at h
    · cases h
    · obtain ⟨-, ⟨rfl, rfl⟩ | ⟨rest, -, -, rfl⟩⟩ := first_of_segmentsOf (by simp) hsegments
      · rfl
      · rw [List.map_cons, List.length_cons, List.length_map, Nat.add_eq_right] at h
        exact absurd (List.length_eq_zero_iff.mp h) (segmentsOf_ne_nil _)

/-- A text that can be a clause of any query. -/
structure Standalone (text : List Char) : Prop where
  trimmed : Trimmed text
  nonempty : text ≠ []
  /-- It leaves no section open. -/
  closed : ∀ rest, openAfter none none text rest = none
  /-- No separator is in it or starts in it with the first blank that follows. -/
  whole : Uncut (marked text ++ [(' ', false)])

namespace Standalone

variable {text : List Char}

theorem segments_eq (h : Standalone text) : segments text = [text] :=
  uncut_marked.mp h.whole.of_append.1

theorem segments_append_separator (h : Standalone text) (rest : List Char) :
    segments (text ++ separator ++ rest) = text :: segments rest := by
  rw [segments, marked_append_separator (h.closed _), segmentsOf_append_separator h.whole,
    map_fst_marked]
  rfl

theorem segments_intercalate {texts : List (List Char)} (hne : texts ≠ [])
    (h : ∀ text ∈ texts, Standalone text) : segments (separator.intercalate texts) = texts := by
  induction texts with
  | nil => exact absurd rfl hne
  | cons text others ih =>
    have htext := h text List.mem_cons_self
    cases others with
    | nil => simpa using htext.segments_eq
    | cons next others =>
      rw [List.intercalate_cons_cons, htext.segments_append_separator,
        ih (by simp) fun other hother => h other (List.mem_cons_of_mem _ hother)]

theorem trim_intercalate_ne_nil {texts : List (List Char)} (hne : texts ≠ [])
    (h : ∀ text ∈ texts, Standalone text) : trim (separator.intercalate texts) ≠ [] := by
  intro hblank
  obtain ⟨u, v, heq, hu, hv, -⟩ := exists_trim (separator.intercalate texts)
  rw [hblank, List.append_nil] at heq
  cases texts with
  | nil => exact hne rfl
  | cons text others =>
    have htext := h text List.mem_cons_self
    obtain ⟨c, rest, rfl⟩ := List.exists_cons_of_ne_nil htext.nonempty
    have hmem : c ∈ separator.intercalate ((c :: rest) :: others) := by
      cases others <;> simp [List.intercalate_cons_cons]
    have hnot := htext.trimmed.first c rfl
    rw [heq, List.mem_append] at hmem
    rcases hmem with hmem | hmem
    · simp [hu c hmem] at hnot
    · simp [hv c hmem] at hnot

/-- Texts that can be clauses are the clauses of the query that joins them. -/
theorem clauses_intercalate {texts : List (List Char)} (h : ∀ text ∈ texts, Standalone text) :
    clauses (separator.intercalate texts) = texts := by
  by_cases hne : texts = []
  · subst hne
    rfl
  · have htrim : texts.map trim = texts :=
      List.map_congr_left (fun text htext => (h text htext).trimmed.trim_eq) |>.trans
        (List.map_id' texts)
    rw [clauses, if_neg (by simpa using trim_intercalate_ne_nil hne h),
      segments_intercalate hne h, htrim]

end Standalone

end Catalog.Query
