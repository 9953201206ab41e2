import Catalog.Proofs.Query.Segments
import Catalog.Proofs.Query.Shortcut

/-! Where operators stand in a clause. The one that splits it is the first of the list that stands
anywhere, at its leftmost place. -/

namespace Catalog.Query

open Catalog.Text

namespace Operator

/-- The operator is written between `left` and `right`, in any case and outside of all sections. A word
has ASCII blanks directly on both sides. -/
structure Occurrence (op : Operator) (clause left written right : List Char) : Prop where
  text : clause = left ++ written ++ right
  spelled : upper written = op.symbol
  unquoted : ((marked clause).drop left.length).take written.length = written.map (·, false)
  apart : op.isWord → left.getLast?.any isAsciiBlank ∧ right.head?.any isAsciiBlank

variable {op : Operator} {before : Option Char} {clause left written right text : List Char}
  {marks : List (Char × Bool)} {n : Nat}

theorem standsAt_iff : op.standsAt before text ↔ ∃ written right, text = written ++ right ∧
    upper written = op.symbol ∧ (op.isWord → before.any isAsciiBlank ∧ right.head?.any isAsciiBlank) := by
  constructor
  · intro h
    refine ⟨text.take op.symbol.length, text.drop op.symbol.length, (List.take_append_drop _ _).symm,
      upper_take_of_standsAt h, fun hop => ?_⟩
    rw [standsAt, if_pos hop, Bool.and_eq_true, Bool.and_eq_true] at h
    exact ⟨h.1.2, h.2⟩
  · rintro ⟨written, right, rfl, hwritten, hapart⟩
    cases hop : op.isWord with
    | true =>
      rw [standsAt_of_isWord hwritten hop, (hapart hop).1, (hapart hop).2]
      rfl
    | false => exact standsAt_of_not_isWord hwritten hop _ _

/-- The operator stands outside of all sections after `n` marked characters. -/
def standsAfter (op : Operator) (before : Option Char) (marks : List (Char × Bool)) (n : Nat) : Bool :=
  match marks.drop n with
  | [] => false
  | (c, quoted) :: rest =>
    !quoted && op.standsAt (lastFrom before ((marks.take n).map (·.1))) (c :: rest.map (·.1))

theorem findFrom?_eq_find? (op : Operator) (before : Option Char) (marks : List (Char × Bool)) :
    op.findFrom? before marks = ((List.range marks.length).find? (op.standsAfter before marks)).map
      fun n => (marks.take n).map (·.1) := by
  induction marks generalizing before with
  | nil => rfl
  | cons mark marks ih =>
    obtain ⟨c, quoted⟩ := mark
    have hrest : op.standsAfter before ((c, quoted) :: marks) ∘ Nat.succ = op.standsAfter (some c) marks := rfl
    rw [findFrom?_cons, List.length_cons, List.range_succ_eq_map, List.find?_cons, List.find?_map, hrest, ih]
    have hfirst : op.standsAfter before ((c, quoted) :: marks) 0 =
        (!quoted && op.standsAt before (c :: marks.map (·.1))) := rfl
    rw [hfirst]
    cases !quoted && op.standsAt before (c :: marks.map (·.1)) with
    | true => rfl
    | false => simp [Function.comp_def]

theorem symbol_ne_nil (op : Operator) : op.symbol ≠ [] := by
  cases op <;> simp [symbol]

theorem exists_cons_of_spelled (hspelled : upper written = op.symbol) :
    ∃ c tail, written = c :: tail := by
  refine List.exists_cons_of_ne_nil ?_
  rintro rfl
  exact op.symbol_ne_nil hspelled.symm

/-- An operator is looked for character by character; whether it is quoted is seen at its first one. -/
theorem standsAfter_append (left rest : List Char) :
    op.standsAfter none (marked (left ++ rest)) left.length ↔
      ∃ written right, op.Occurrence (left ++ rest) left written right := by
  have hrest : ((marked (left ++ rest)).drop left.length).map (·.1) = rest := map_fst_drop_marked rfl
  have hbefore : lastFrom none (((marked (left ++ rest)).take left.length).map (·.1)) = left.getLast? := by
    rw [List.map_take, map_fst_marked, List.take_left, lastFrom_eq, Option.or_none]
  rw [standsAfter, hbefore]
  constructor
  · intro h
    split at h
    · cases h
    · rename_i c quoted marks hdrop
      rw [hdrop, List.map_cons] at hrest
      rw [Bool.and_eq_true, Bool.not_eq_true', hrest, standsAt_iff] at h
      obtain ⟨hquoted, written, right, rfl, hspelled, hapart⟩ := h
      have htext : left ++ (written ++ right) = left ++ written ++ right := (List.append_assoc _ _ _).symm
      obtain ⟨mark, hmarks⟩ := exists_plain_marks htext (not_isQuote_of_mem_word hspelled)
      refine ⟨written, right, htext, hspelled, ?_, hapart⟩
      rw [hmarks, List.take_left' (List.length_map _)]
      rw [hdrop] at hmarks
      obtain ⟨d, tail, rfl⟩ := exists_cons_of_spelled hspelled
      rw [List.map_cons, List.cons_append, List.cons.injEq, Prod.mk.injEq] at hmarks
      rw [← hmarks.1.2, hquoted]
  · rintro ⟨written, right, htext, hspelled, hunquoted, hapart⟩
    rw [List.append_assoc, List.append_cancel_left_eq] at htext
    obtain ⟨d, tail, rfl⟩ := exists_cons_of_spelled hspelled
    split
    · rename_i hdrop
      rw [hdrop, htext] at hrest
      cases hrest
    · rename_i c quoted marks hdrop
      rw [hdrop, List.map_cons] at hrest
      rw [hdrop, List.length_cons, List.take_succ_cons, List.map_cons, List.cons.injEq,
        Prod.mk.injEq] at hunquoted
      rw [hrest, hunquoted.1.2, Bool.not_false, Bool.true_and, standsAt_iff]
      exact ⟨_, right, htext, hspelled, hapart⟩

theorem Occurrence.standsAfter (h : op.Occurrence clause left written right) :
    op.standsAfter none (marked clause) left.length := by
  have htext := h.text
  rw [List.append_assoc] at htext
  subst htext
  exact (standsAfter_append left (written ++ right)).mpr ⟨written, right, h⟩

theorem Occurrence.length_left_lt (h : op.Occurrence clause left written right) :
    left.length < clause.length := by
  obtain ⟨c, tail, rfl⟩ := exists_cons_of_spelled h.spelled
  simp [h.text]

theorem exists_place_of_mem_range (h : n ∈ List.range (marked clause).length) :
    ∃ left rest, clause = left ++ rest ∧ left.length = n := by
  rw [List.mem_range, marked, List.length_zip, length_quotedMask, Nat.min_self] at h
  exact ⟨clause.take n, clause.drop n, (List.take_append_drop n clause).symm,
    List.length_take_of_le (Nat.le_of_lt h)⟩

theorem findFrom?_eq_none_iff : op.findFrom? none (marked clause) = none ↔
    ∀ left written right, ¬op.Occurrence clause left written right := by
  rw [findFrom?_eq_find?, Option.map_eq_none_iff, List.find?_eq_none]
  constructor
  · intro h left written right hoccurs
    refine h left.length ?_ hoccurs.standsAfter
    simpa [marked, length_quotedMask] using hoccurs.length_left_lt
  · intro h n hn hstands
    obtain ⟨left, rest, rfl, rfl⟩ := exists_place_of_mem_range hn
    obtain ⟨written, right, hoccurs⟩ := (standsAfter_append left rest).mp hstands
    exact h left written right hoccurs

/-- An operator is found where it stands first. -/
theorem occurrence_of_findFrom? (h : op.findFrom? none (marked clause) = some left) :
    (∃ written right, op.Occurrence clause left written right) ∧
      ∀ other written right, op.Occurrence clause other written right → left.length ≤ other.length := by
  rw [findFrom?_eq_find?, Option.map_eq_some_iff] at h
  obtain ⟨n, hfind, hleft⟩ := h
  obtain ⟨hstands, hn, hbefore⟩ := List.find?_range_eq_some.mp hfind
  obtain ⟨front, rest, rfl, rfl⟩ := exists_place_of_mem_range hn
  rw [List.map_take, map_fst_marked, List.take_left] at hleft
  subst hleft
  refine ⟨(standsAfter_append front rest).mp hstands, fun other written right hother => ?_⟩
  by_contra hshort
  have hearlier := hbefore other.length (by omega)
  rw [hother.standsAfter] at hearlier
  cases hearlier

end Operator

namespace Split

variable {split : Split} {clause : List Char}

/-- The split is at the operator that is first in the list of those that stand in the clause, where it
stands first. -/
structure IsFirst (split : Split) (clause written : List Char) : Prop where
  occurs : split.op.Occurrence clause split.left written split.right
  earliest : ∀ op left written right, Operator.Occurrence op clause left written right →
    Operator.all.idxOf split.op ≤ Operator.all.idxOf op
  leftmost : ∀ left written right, split.op.Occurrence clause left written right →
    split.left.length ≤ left.length

theorem ofClause?_eq_none_iff : ofClause? clause = none ↔
    ∀ op left written right, ¬Operator.Occurrence op clause left written right := by
  rw [ofClause?, List.findSome?_eq_none_iff]
  constructor
  · intro h op
    have hnone := h op (by cases op <;> decide)
    exact Operator.findFrom?_eq_none_iff.mp (Option.map_eq_none_iff.mp hnone)
  · intro h op _
    exact Option.map_eq_none_iff.mpr (Operator.findFrom?_eq_none_iff.mpr (h op))

theorem isFirst_of_ofClause? (h : ofClause? clause = some split) :
    ∃ written, split.IsFirst clause written := by
  rw [ofClause?, List.findSome?_eq_some_iff] at h
  obtain ⟨before, op, after, hall, hfound, hbefore⟩ := h
  obtain ⟨left, hfind, rfl⟩ := Option.map_eq_some_iff.mp hfound
  obtain ⟨⟨written, right, hoccurs⟩, hleftmost⟩ := Operator.occurrence_of_findFrom? hfind
  have hright : clause.drop (left.length + op.symbol.length) = right := by
    rw [← Operator.length_word hoccurs.spelled, ← List.length_append]
    simp [hoccurs.text]
  refine ⟨written, by rwa [hright], fun other left' written' right' hother => ?_, hleftmost⟩
  have hmem : other ∉ before := fun hmem =>
    Operator.findFrom?_eq_none_iff.mp (Option.map_eq_none_iff.mp (hbefore other hmem)) _ _ _ hother
  rw [hall, List.idxOf_append_of_notMem hmem]
  have hself : (before ++ op :: after).idxOf op ≤ before.length := by
    rw [List.idxOf_append]
    split
    · rename_i hop
      exact Nat.le_of_lt (List.idxOf_lt_length_of_mem hop)
    · simp
  exact Nat.le_trans hself (Nat.le_add_right _ _)

theorem IsFirst.stop_eq {written : List Char} (h : split.IsFirst clause written) :
    split.stop = byteLength (split.left ++ written) := by
  rw [stop, start, ← h.occurs.spelled, byteLength_upper, byteLength_append]

/-- The operator stands between the offsets of a split. -/
theorem IsFirst.slice_eq {written : List Char} (h : split.IsFirst clause written) :
    slice clause split.start split.stop = .ok written := by
  rw [h.stop_eq, h.occurs.text]
  exact slice_append split.left written split.right

theorem IsFirst.slice_left {written : List Char} (h : split.IsFirst clause written) :
    slice clause 0 split.start = .ok split.left := by
  rw [h.occurs.text, List.append_assoc]
  exact slice_front split.left _

theorem IsFirst.slice_right {written : List Char} (h : split.IsFirst clause written) :
    slice clause split.stop (byteLength clause) = .ok split.right := by
  rw [h.stop_eq, h.occurs.text]
  exact slice_back _ split.right

theorem IsFirst.start_lt_stop {written : List Char} (h : split.IsFirst clause written) :
    split.start < split.stop := by
  obtain ⟨c, tail, rfl⟩ := Operator.exists_cons_of_spelled h.occurs.spelled
  have hpos := c.utf8Size_pos
  rw [h.stop_eq, byteLength_append, byteLength_cons, start]
  omega

theorem IsFirst.stop_le {written : List Char} (h : split.IsFirst clause written) :
    split.stop ≤ byteLength clause := by
  rw [h.stop_eq, h.occurs.text, byteLength_append (_ ++ _)]
  exact Nat.le_add_right _ _

/-- Both offsets of a split are places between characters. -/
theorem IsFirst.isValid {written : List Char} (h : split.IsFirst clause written) :
    String.Pos.Raw.IsValid (String.ofList clause) ⟨split.start⟩ ∧
      String.Pos.Raw.IsValid (String.ofList clause) ⟨split.stop⟩ := by
  rw [h.stop_eq, h.occurs.text]
  refine ⟨?_, isValid_byteLength _ _⟩
  rw [List.append_assoc]
  exact isValid_byteLength _ _

end Split

end Catalog.Query
