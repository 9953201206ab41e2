import Catalog.Proofs.Query.Comparison

/-! Shortcuts as they are written: the word of a shortcut in any ASCII case, an operator if one may stand
there, and a value. Each is one clause and is read as the shortcut of its word. -/

namespace Catalog.Query

open Catalog.Text

variable {shortcut : Shortcut} {word value : List Char}

/-- No shortcut begins with the word of another one. -/
theorem eq_of_word_begins {other : Shortcut} (hother : other ∈ shortcuts) (hshortcut : shortcut ∈ shortcuts)
    (h : lower other.word.toList <+: lower shortcut.word.toList) : other = shortcut := by
  have hapart : shortcuts.Pairwise fun s t =>
      ¬lower s.word.toList <+: lower t.word.toList ∧ ¬lower t.word.toList <+: lower s.word.toList := by
    simp only [← List.isPrefixOf_iff_prefix]
    decide +kernel
  have hunique : shortcuts.Pairwise (flip fun s t => lower s.word.toList <+: lower t.word.toList → s = t) :=
    hapart.imp fun hst hprefix => absurd hprefix hst.2
  exact List.Pairwise.forall_of_forall_of_flip (fun _ _ _ => rfl)
    (hapart.imp fun hst hprefix => absurd hprefix hst.1) hunique hother hshortcut h

theorem lower_take_eq (h : sameLetters (value.take word.length) word) : lower word <+: lower value := by
  rw [sameLetters, beq_iff_eq] at h
  rw [← h, lower, lower, List.map_take]
  exact List.take_prefix _ _

/-- A text that begins with the word of a shortcut is that shortcut with the rest as its value. -/
theorem shortcut?_append (hshortcut : shortcut ∈ shortcuts)
    (hword : sameLetters word shortcut.word.toList) (rest : List Char) :
    shortcut? (word ++ rest) = some (shortcut, trim rest) := by
  have hsame := hword
  rw [sameLetters, beq_iff_eq] at hsame
  have hlength : word.length = shortcut.word.toList.length := by
    simpa [lower] using congrArg List.length hsame
  have hself : sameLetters ((word ++ rest).take shortcut.word.toList.length) shortcut.word.toList := by
    rwa [← hlength, List.take_left]
  have hunique : ∀ other ∈ shortcuts,
      sameLetters ((word ++ rest).take other.word.toList.length) other.word.toList → other = shortcut := by
    intro other hother hsame
    rcases List.prefix_or_prefix_of_prefix (lower_take_eq hsame) (lower_take_eq hself) with h | h
    · exact eq_of_word_begins hother hshortcut h
    · exact (eq_of_word_begins hshortcut hother h).symm
  cases hfound : shortcut? (word ++ rest) with
  | none =>
    have hnone := List.findSome?_eq_none_iff.mp hfound shortcut hshortcut
    rw [if_pos hself] at hnone
    cases hnone
  | some found =>
    obtain ⟨other, hother, hsome⟩ := List.exists_of_findSome?_eq_some hfound
    dsimp only at hsome
    by_cases hbegins : sameLetters ((word ++ rest).take other.word.toList.length) other.word.toList
    · obtain rfl := hunique other hother hbegins
      rw [← hsome, if_pos hself, ← hlength, List.drop_left]
    · rw [if_neg hbegins] at hsome
      cases hsome

theorem predicate?_shortcut (hshortcut : shortcut ∈ shortcuts)
    (hword : sameLetters word shortcut.word.toList) (rest : List Char) (normalizedCategory : String) :
    predicate? normalizedCategory (word ++ rest) =
      shortcut.predicate? normalizedCategory (trim rest) := by
  rw [predicate?, shortcut?_append hshortcut hword]

theorem takeOperator_eq_none (h : ∀ c ∈ value.head?, ¬isSign c) : takeOperator value = (none, value) := by
  cases value with
  | nil => rfl
  | cons c rest =>
    have hc : c ≠ '<' ∧ c ≠ '>' ∧ c ≠ '=' := by simpa [isSign, and_assoc] using h c rfl
    simp [takeOperator, leadingOperators, afterStart?, Operator.symbol, hc.1.symm, hc.2.1.symm,
      hc.2.2.symm]

theorem takeOperator_symbol {op : Operator} (hop : op ∈ leadingOperators) (htrim : trim value = value)
    (h : ∀ c ∈ value.head?, ¬isSign c) : takeOperator (op.symbol ++ value) = (some op, value) := by
  cases value with
  | nil =>
    simp only [leadingOperators, List.mem_cons, List.not_mem_nil, or_false] at hop
    rcases hop with rfl | rfl | rfl | rfl | rfl <;> rfl
  | cons c rest =>
    have hc : '=' ≠ c := by
      rintro rfl
      exact h _ rfl rfl
    simp only [leadingOperators, List.mem_cons, List.not_mem_nil, or_false] at hop
    rcases hop with rfl | rfl | rfl | rfl | rfl <;>
      simp [takeOperator, leadingOperators, afterStart?, Operator.symbol, htrim, hc]

/-! ### Words -/

theorem toLower_of_isBlank_or_isQuote {c : Char} (h : isBlank c ∨ isQuote c) : c.toLower = c := by
  unfold Char.toLower
  split
  · rename_i hcapital
    have hrange : 65 ≤ c.toNat ∧ c.toNat ≤ 90 := ⟨hcapital.1, hcapital.2⟩
    rcases h with h | h
    · have hblank := range_of_isBlank h
      omega
    · rcases eq_of_isQuote h with rfl | rfl <;> simp at hrange
  · rfl

/-- The word of a shortcut holds neither blanks nor quotes, in any case of its letters. -/
theorem not_isBlank_or_isQuote_of_mem_word (hshortcut : shortcut ∈ shortcuts)
    (hword : sameLetters word shortcut.word.toList) : ∀ c ∈ word, ¬(isBlank c ∨ isQuote c) := by
  intro c hc h
  have hplain : ∀ shortcut ∈ shortcuts,
      (lower shortcut.word.toList).all fun c => !(isBlank c || isQuote c) := by
    decide +kernel
  rw [sameLetters, beq_iff_eq] at hword
  have hmem : c ∈ lower shortcut.word.toList :=
    hword ▸ List.mem_map.mpr ⟨c, hc, toLower_of_isBlank_or_isQuote h⟩
  have hc := List.all_eq_true.mp (hplain shortcut hshortcut) c hmem
  rcases h with h | h <;> simp [h] at hc

theorem lastFrom_eq (before : Option Char) (text : List Char) :
    lastFrom before text = text.getLast?.or before := by
  induction text generalizing before with
  | nil => rfl
  | cons c text ih => rw [lastFrom, ih, List.getLast?_cons]; cases text.getLast? <;> rfl

theorem lastFrom_word (hshortcut : shortcut ∈ shortcuts)
    (hword : sameLetters word shortcut.word.toList) : lastFrom none word = some ':' := by
  have hends : ∀ shortcut ∈ shortcuts, (lower shortcut.word.toList).getLast? = some ':' := by
    decide +kernel
  have hlast := hends shortcut hshortcut
  rw [sameLetters, beq_iff_eq] at hword
  rw [← hword, lower, List.getLast?_map, Option.map_eq_some_iff] at hlast
  obtain ⟨c, hc, hlower⟩ := hlast
  rw [lastFrom_eq, hc, eq_colon_of_toLower hlower]
  rfl

/-! ### Clauses -/

/-- Only the last operator is looked for after a word. -/
theorem precedesIn_of_signsQuoted (h : ∀ mark ∈ marked value, isSign mark.1 → mark.2) {op : Operator}
    (hop : op ≠ .contains) : op.precedesIn value := by
  intro other hother
  have hword : other.isWord = false := by
    revert other
    cases op with
    | contains => exact absurd rfl hop
    | _ => decide
  exact Operator.findFrom?_eq_none hword h _

theorem signsQuoted_of_noSign (h : ∀ c ∈ value, ¬isSign c) : ∀ mark ∈ marked value, isSign mark.1 → mark.2 :=
  fun _ hmark hsign => absurd hsign (h _ ((map_fst_marked value) ▸ List.mem_map_of_mem hmark))

/-- A text that can be the value of a clause as it is: one clause, and every comparison sign of it stands
inside a quoted section. -/
structure Writable (value : List Char) : Prop where
  trimmed : Trimmed value
  nonempty : value ≠ []
  signsQuoted : ∀ mark ∈ marked value, isSign mark.1 → mark.2
  single : (clauses value).length = 1

theorem Writable.of_noSign (htrimmed : Trimmed value) (hne : value ≠ []) (hsign : ∀ c ∈ value, ¬isSign c)
    (hsingle : (clauses value).length = 1) : Writable value where
  trimmed := htrimmed
  nonempty := hne
  signsQuoted := signsQuoted_of_noSign hsign
  single := hsingle

/-- The operator that is written in front of a shortcut's value, if any. -/
def leadText : Option Operator → List Char
  | none => []
  | some op => op.symbol

/-- A shortcut as it is written: its word, an operator if any, and the value. -/
def shortcutText (word : List Char) (lead : Option Operator) (value : List Char) : List Char :=
  word ++ leadText lead ++ value

theorem marked_cons (c : Char) (rest : List Char) :
    ∃ marks, marked (c :: rest) = (c, false) :: marks := by
  rw [marked, quotedMask, quotedFrom_cons]
  exact ⟨_, rfl⟩

theorem not_isBlank_or_isQuote_of_mem_symbol {op : Operator} :
    ∀ c ∈ op.symbol, ¬(isBlank c ∨ isQuote c) := by
  have hplain : op.symbol.all fun c => !(isBlank c || isQuote c) := by cases op <;> decide +kernel
  intro c hc h
  have hc := List.all_eq_true.mp hplain c hc
  rcases h with h | h <;> simp [h] at hc

namespace Writable

variable (h : Writable value)
include h

/-- The first character is never inside a quoted section, so it is no sign. -/
theorem not_isSign_head : ∀ c ∈ value.head?, ¬isSign c := by
  intro c hc hsign
  obtain ⟨rest, rfl⟩ := List.head?_eq_some_iff.mp hc
  obtain ⟨marks, hmarks⟩ := marked_cons c rest
  have hquoted := h.signsQuoted (c, false) (hmarks ▸ List.mem_cons_self) hsign
  cases hquoted

theorem uncut : Uncut (marked value) := uncut_of_clauses h.single

theorem precedesIn {op : Operator} (hop : op ≠ .contains) : op.precedesIn value :=
  precedesIn_of_signsQuoted h.signsQuoted hop

section

variable (hshortcut : shortcut ∈ shortcuts) (hword : sameLetters word shortcut.word.toList)
  (lead : Option Operator)
include hshortcut hword

omit h in
theorem mem_head {c : Char} (hc : c ∈ word ++ leadText lead) : ¬(isBlank c ∨ isQuote c) := by
  rcases List.mem_append.mp hc with hc | hc
  · exact not_isBlank_or_isQuote_of_mem_word hshortcut hword c hc
  · cases lead with
    | none => cases hc
    | some op => exact not_isBlank_or_isQuote_of_mem_symbol c hc

omit h in
theorem startsValue_head (hlead : ∀ op ∈ lead, op ∈ leadingOperators) :
    startsValue (lastFrom none (word ++ leadText lead)) := by
  rw [lastFrom_append, lastFrom_word hshortcut hword]
  cases lead with
  | none => rfl
  | some op =>
    have hop := hlead op rfl
    revert hop
    cases op <;> decide

omit h in
theorem isBlank_head {c : Char} (hc : c ∈ word ++ leadText lead) : isBlank c = false := by
  simpa using fun hblank => mem_head hshortcut hword lead hc (.inl hblank)

omit h in
theorem word_ne_nil : word ≠ [] := by
  rintro rfl
  have hlast := lastFrom_word hshortcut hword
  cases hlast

theorem trimmed_shortcutText : Trimmed (shortcutText word lead value) :=
  Trimmed.append (fun _ hc => isBlank_head hshortcut hword lead (List.mem_of_mem_head? hc))
    (by simp [word_ne_nil hshortcut hword]) h.trimmed h.nonempty

theorem clauses_shortcutText (hlead : ∀ op ∈ lead, op ∈ leadingOperators) :
    clauses (shortcutText word lead value) = [shortcutText word lead value] := by
  refine clauses_eq_singleton (h.trimmed_shortcutText hshortcut hword lead)
    (by simp [shortcutText, word_ne_nil hshortcut hword]) ?_
  rw [shortcutText, marked_plain_append
    (fun c hc hquote => mem_head hshortcut hword lead hc (.inr hquote))
    (startsValue_head hshortcut hword lead hlead)]
  refine h.uncut.append fun mark hmark hspace => ?_
  obtain ⟨c, hc, rfl⟩ := List.mem_map.mp hmark
  have hnot := isBlank_head hshortcut hword lead hc
  rw [show c = ' ' from hspace] at hnot
  exact absurd hnot (by decide)

theorem predicate?_shortcutText (normalizedCategory : String) :
    predicate? normalizedCategory (shortcutText word lead value) =
      shortcut.predicate? normalizedCategory (leadText lead ++ value) := by
  have htrimmed : Trimmed (leadText lead ++ value) := by
    cases lead with
    | none => exact h.trimmed
    | some op =>
      refine Trimmed.append ?_ (by cases op <;> simp [leadText, Operator.symbol]) h.trimmed h.nonempty
      intro c hc
      simpa using fun hblank =>
        not_isBlank_or_isQuote_of_mem_symbol c (List.mem_of_mem_head? hc) (.inl hblank)
  rw [shortcutText, List.append_assoc, predicate?_shortcut hshortcut hword, htrimmed.trim_eq]

end

theorem takeOperator_leadText {lead : Option Operator} (hlead : ∀ op ∈ lead, op ∈ leadingOperators) :
    takeOperator (leadText lead ++ value) = (lead, value) := by
  cases lead with
  | none => exact takeOperator_eq_none h.not_isSign_head
  | some op => exact takeOperator_symbol (hlead op rfl) h.trimmed.trim_eq h.not_isSign_head

end Writable

end Catalog.Query
