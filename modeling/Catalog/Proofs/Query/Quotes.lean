import Catalog.Query.Quotes

/-! Quoted sections of a text that is part of a longer one. Where no section is open at its end, the part
has the sections that it has alone. -/

namespace Catalog.Query

open Catalog.Text

/-- The character before what follows a text. -/
def lastFrom (before : Option Char) : List Char → Option Char
  | [] => before
  | c :: rest => lastFrom (some c) rest

/-- The quote of the section that is open after a character. -/
def stepQuote (before within : Option Char) (c : Char) (after : List Char) : Option Char :=
  match within with
  | some quote => if c = quote then none else some quote
  | none => if opens before c after then some c else none

/-- The quote of the section that is open after a text which goes on with `rest`. -/
def openAfter (before within : Option Char) : List Char → List Char → Option Char
  | [], _ => within
  | c :: text, rest => openAfter (some c) (stepQuote before within c (text ++ rest)) text rest

variable {before within : Option Char} {c quote : Char} {text rest : List Char}

theorem quotedFrom_cons (before within : Option Char) (c : Char) (rest : List Char) :
    quotedFrom before within (c :: rest) =
      within.any (· != c) :: quotedFrom (some c) (stepQuote before within c rest) rest := by
  cases within with
  | none =>
    by_cases h : opens before c rest <;> simp [quotedFrom, stepQuote, h]
  | some quote =>
    by_cases h : c = quote
    · simp [quotedFrom, stepQuote, h]
    · simp [quotedFrom, stepQuote, h, Ne.symm h]

theorem lastFrom_append (before : Option Char) (s t : List Char) :
    lastFrom before (s ++ t) = lastFrom (lastFrom before s) t := by
  induction s generalizing before with
  | nil => rfl
  | cons c s ih => exact ih (some c)

theorem openAfter_append (before within : Option Char) (s t rest : List Char) :
    openAfter before within (s ++ t) rest =
      openAfter (lastFrom before s) (openAfter before within s (t ++ rest)) t rest := by
  induction s generalizing before within with
  | nil => rfl
  | cons c s ih =>
    rw [List.cons_append, openAfter, ih, openAfter, List.append_assoc]
    rfl

theorem opens_iff {after : List Char} :
    opens before c after ↔ isQuote c ∧ startsValue before ∧ c ∈ after := by
  simp [opens, and_assoc]

/-- Only whether a value can start matters of the character before a text. -/
theorem quotedFrom_congr {before' : Option Char} (h : startsValue before = startsValue before')
    (within : Option Char) (text : List Char) :
    quotedFrom before within text = quotedFrom before' within text := by
  cases text with
  | nil => rfl
  | cons c rest =>
    have hopens : opens before c rest = opens before' c rest := by rw [opens, opens, h]
    rw [quotedFrom_cons, quotedFrom_cons]
    simp only [stepQuote, hopens]

theorem mem_of_openAfter_eq_none (h : openAfter before (some quote) text rest = none) :
    quote ∈ text := by
  induction text generalizing before with
  | nil => simp [openAfter] at h
  | cons c text ih =>
    by_cases hc : c = quote
    · simp [hc]
    · rw [openAfter, stepQuote, if_neg hc] at h
      exact List.mem_cons_of_mem _ (ih h)

theorem isQuote_of_stepQuote {after : List Char} (hwithin : ∀ q ∈ within, isQuote q) :
    ∀ q ∈ stepQuote before within c after, isQuote q := by
  intro q hq
  cases within with
  | some opened =>
    simp only [stepQuote] at hq
    split at hq
    · simp at hq
    · exact hwithin q hq
  | none =>
    simp only [stepQuote] at hq
    split at hq
    · rename_i hopens
      rw [Option.mem_some_iff] at hq
      exact hq ▸ (opens_iff.mp hopens).1
    · simp at hq

/-- Where no section is open after a text, what follows it has no part in its sections. -/
theorem stepQuote_append
    (h : openAfter (some c) (stepQuote before within c (text ++ rest)) text rest = none) :
    stepQuote before within c (text ++ rest) = stepQuote before within c text := by
  cases within with
  | some quote => rfl
  | none =>
    simp only [stepQuote] at h ⊢
    by_cases hopens : opens before c (text ++ rest)
    · rw [if_pos hopens] at h ⊢
      have hmem := mem_of_openAfter_eq_none h
      obtain ⟨hquote, hstarts, -⟩ := opens_iff.mp hopens
      rw [if_pos (opens_iff.mpr ⟨hquote, hstarts, hmem⟩)]
    · have hshort : ¬opens before c text := by
        intro hshort
        obtain ⟨hquote, hstarts, hmem⟩ := opens_iff.mp hshort
        exact hopens (opens_iff.mpr ⟨hquote, hstarts, List.mem_append_left _ hmem⟩)
      rw [if_neg hopens, if_neg hshort]

theorem quotedFrom_append (h : openAfter before within text rest = none) :
    quotedFrom before within (text ++ rest) =
      quotedFrom before within text ++ quotedFrom (lastFrom before text) none rest := by
  induction text generalizing before within with
  | nil =>
    rw [openAfter] at h
    rw [h]
    rfl
  | cons c text ih =>
    rw [openAfter] at h
    rw [List.cons_append, quotedFrom_cons, ih h, quotedFrom_cons, stepQuote_append h]
    rfl

/-! ### Texts without quotes -/

theorem openAfter_of_plain (h : ∀ c ∈ text, ¬isQuote c) :
    openAfter before none text rest = none := by
  induction text generalizing before with
  | nil => rfl
  | cons c text ih =>
    have hc : ¬opens before c (text ++ rest) := fun hopens =>
      h c List.mem_cons_self (opens_iff.mp hopens).1
    rw [openAfter, stepQuote, if_neg hc]
    exact ih fun d hd => h d (List.mem_cons_of_mem _ hd)

theorem quotedFrom_of_plain (h : ∀ c ∈ text, ¬isQuote c) :
    quotedFrom before none text = text.map fun _ => false := by
  induction text generalizing before with
  | nil => rfl
  | cons c text ih =>
    have hc : ¬opens before c text := fun hopens => h c List.mem_cons_self (opens_iff.mp hopens).1
    rw [quotedFrom_cons, stepQuote, if_neg hc, ih fun d hd => h d (List.mem_cons_of_mem _ hd)]
    rfl

/-- No section is open before a text without quotes that ends everything. -/
theorem openAfter_eq_none_of_plain (hrest : ∀ c ∈ rest, ¬isQuote c)
    (hwithin : ∀ q ∈ within, q ∈ text) : openAfter before within text rest = none := by
  induction text generalizing before within with
  | nil =>
    cases within with
    | none => rfl
    | some q => simp at hwithin
  | cons c text ih =>
    refine ih fun q hq => ?_
    cases within with
    | some opened =>
      simp only [stepQuote] at hq
      split at hq
      · simp at hq
      · rename_i hc
        have hmem := hwithin opened rfl
        rw [Option.mem_some_iff] at hq
        subst hq
        exact (List.mem_cons.mp hmem).resolve_left (Ne.symm hc)
    | none =>
      simp only [stepQuote] at hq
      split at hq
      · rename_i hopens
        rw [Option.mem_some_iff] at hq
        subst hq
        obtain ⟨hquote, -, hmem⟩ := opens_iff.mp hopens
        rcases List.mem_append.mp hmem with hmem | hmem
        · exact hmem
        · exact absurd hquote (hrest c hmem)
      · simp at hq

/-! ### A section -/

theorem openAfter_inside (h : quote ∉ text) :
    openAfter before (some quote) text rest = some quote := by
  induction text generalizing before with
  | nil => rfl
  | cons c text ih =>
    rw [List.mem_cons, not_or] at h
    rw [openAfter, stepQuote, if_neg (Ne.symm h.1)]
    exact ih h.2

theorem quotedFrom_inside (h : quote ∉ text) :
    quotedFrom before (some quote) (text ++ rest) =
      (text.map fun _ => true) ++ quotedFrom (lastFrom before text) (some quote) rest := by
  induction text generalizing before with
  | nil => rfl
  | cons c text ih =>
    rw [List.mem_cons, not_or] at h
    rw [List.cons_append, quotedFrom_cons, stepQuote, if_neg (Ne.symm h.1), ih h.2]
    simp [h.1, lastFrom]

end Catalog.Query
