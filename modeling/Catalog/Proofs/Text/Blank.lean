import Catalog.Proofs.Text.Ascii
import Catalog.Text.Blank

/-! Trimming takes away the blanks around a text and nothing else. -/

namespace Catalog.Text

/-- The text neither starts nor ends with a blank. -/
structure Trimmed (s : List Char) : Prop where
  first : ∀ c ∈ s.head?, isBlank c = false
  last : ∀ c ∈ s.getLast?, isBlank c = false

/-- The ends of a given text can be looked at. -/
theorem Trimmed.of_all {s : List Char} (hfirst : s.head?.all fun c => !isBlank c)
    (hlast : s.getLast?.all fun c => !isBlank c) : Trimmed s := by
  constructor <;> intro c hc
  · rw [Option.mem_def.mp hc] at hfirst
    simpa using hfirst
  · rw [Option.mem_def.mp hc] at hlast
    simpa using hlast

theorem Trimmed.of_forall {s : List Char} (h : ∀ c ∈ s, isBlank c = false) : Trimmed s :=
  ⟨fun c hc => h c (List.mem_of_mem_head? hc), fun c hc => h c (List.mem_of_mem_getLast? hc)⟩

/-- Blanks stand before or after all digits and letters of ASCII. -/
theorem range_of_isBlank {c : Char} (h : isBlank c) : c.toNat ≤ 0x20 ∨ 0x85 ≤ c.toNat := by
  simp only [isBlank, inRanges, blankRanges, List.any_cons, List.any_nil, Bool.or_false, Bool.or_eq_true,
    Bool.and_eq_true, decide_eq_true_eq] at h
  omega

theorem isBlank_of_isDigit {c : Char} (h : c.isDigit) : isBlank c = false := by
  have hbounds : 48 ≤ c.toNat ∧ c.toNat ≤ 57 := bounds_of_isDigit h
  rw [← Bool.not_eq_true]
  intro hblank
  have hrange := range_of_isBlank hblank
  omega

theorem toUpper_of_isBlank {c : Char} (h : isBlank c) : c.toUpper = c := by
  refine toUpper_of_not_isLower ?_
  rw [← Bool.not_eq_true]
  intro hlower
  have hbounds : 97 ≤ c.toNat ∧ c.toNat ≤ 122 := bounds_of_isLower hlower
  have hrange := range_of_isBlank h
  omega

theorem dropWhile_append_of_forall {p : Char → Bool} {u s : List Char} (hu : ∀ c ∈ u, p c)
    (hs : ∀ c ∈ s.head?, p c = false) : (u ++ s).dropWhile p = s := by
  rw [List.dropWhile_append_of_pos hu]
  cases s with
  | nil => rfl
  | cons c s => rw [List.dropWhile_cons_of_neg (by simp [hs c (by simp)])]

/-- Blanks around a text that has none at its ends are all that is trimmed. -/
theorem trim_append {u s v : List Char} (hs : Trimmed s) (hne : s ≠ []) (hu : ∀ c ∈ u, isBlank c)
    (hv : ∀ c ∈ v, isBlank c) : trim (u ++ s ++ v) = s := by
  have hstart : trimStart (u ++ (s ++ v)) = s ++ v := by
    refine dropWhile_append_of_forall hu fun c hc => hs.first c ?_
    obtain ⟨d, rest, rfl⟩ := List.exists_cons_of_ne_nil hne
    simpa using hc
  have hend : (s ++ v).reverse.dropWhile isBlank = s.reverse := by
    rw [List.reverse_append]
    refine dropWhile_append_of_forall (by simpa using hv) fun c hc => hs.last c ?_
    rwa [List.head?_reverse] at hc
  rw [trim, List.append_assoc, hstart, trimEnd, hend, List.reverse_reverse]

theorem Trimmed.trim_eq {s : List Char} (h : Trimmed s) : trim s = s := by
  by_cases hne : s = []
  · subst hne
    rfl
  · simpa using trim_append (u := []) (v := []) h hne (by simp) (by simp)

theorem Trimmed.trimEnd_eq {s : List Char} (h : Trimmed s) : trimEnd s = s := by
  have hlast : ∀ c ∈ s.reverse.head?, isBlank c = false := fun c hc =>
    h.last c (by rwa [List.head?_reverse] at hc)
  rw [trimEnd, ← List.nil_append s.reverse, dropWhile_append_of_forall (by simp) hlast,
    List.reverse_reverse]

theorem Trimmed.append {head s : List Char} (hhead : ∀ c ∈ head.head?, isBlank c = false)
    (hne : head ≠ []) (hs : Trimmed s) (hne' : s ≠ []) : Trimmed (head ++ s) := by
  constructor
  · obtain ⟨c, rest, rfl⟩ := List.exists_cons_of_ne_nil hne
    exact hhead
  · rw [List.getLast?_append, List.getLast?_eq_some_getLast hne', Option.some_or,
      ← List.getLast?_eq_some_getLast hne']
    exact hs.last

/-- Trimming takes blanks away at both ends and leaves none there. -/
theorem exists_trim (s : List Char) :
    ∃ u v, s = u ++ trim s ++ v ∧ (∀ c ∈ u, isBlank c) ∧ (∀ c ∈ v, isBlank c) ∧ Trimmed (trim s) := by
  obtain ⟨t, ht⟩ : ∃ t, t = trimStart s := ⟨_, rfl⟩
  have hs : s = s.takeWhile isBlank ++ t := by rw [ht, trimStart, List.takeWhile_append_dropWhile]
  have htrim : trim s = trimEnd t := by rw [trim, ht]
  have hend : t = trimEnd t ++ (t.reverse.takeWhile isBlank).reverse := by
    rw [trimEnd, ← List.reverse_append, List.takeWhile_append_dropWhile, List.reverse_reverse]
  refine ⟨s.takeWhile isBlank, (t.reverse.takeWhile isBlank).reverse, ?_, fun c hc => ?_,
    fun c hc => ?_, ⟨fun c hc => ?_, fun c hc => ?_⟩⟩
  · rw [htrim, List.append_assoc, ← hend, ← hs]
  · exact List.all_eq_true.mp List.all_takeWhile c hc
  · exact List.all_eq_true.mp List.all_takeWhile c (List.mem_reverse.mp hc)
  · -- What is left at the end starts as what was left at the start.
    obtain ⟨rest, hrest⟩ : ∃ rest, t = c :: rest := by
      rw [htrim] at hc
      cases htail : trimEnd t with
      | nil => simp [htail] at hc
      | cons d tail =>
        rw [htail, List.head?_cons, Option.mem_some_iff] at hc
        rw [htail, hc] at hend
        exact ⟨_, hend⟩
    exact trimStart_cons_not_blank (ht.symm.trans hrest)
  · have hnot := List.head?_dropWhile_not isBlank t.reverse
    rw [htrim, trimEnd, List.getLast?_reverse] at hc
    rw [Option.mem_def.mp hc] at hnot
    simpa using hnot

/-- Only blanks are trimmed away. -/
theorem mem_trim {s : List Char} {c : Char} (h : c ∈ s) (hc : isBlank c = false) : c ∈ trim s := by
  obtain ⟨u, v, heq, hu, hv, -⟩ := exists_trim s
  rw [heq, List.mem_append, List.mem_append] at h
  rcases h with (h | h) | h
  · rw [hu c h] at hc
    cases hc
  · exact h
  · rw [hv c h] at hc
    cases hc

/-- Trimming adds nothing. -/
theorem mem_of_mem_trim {s : List Char} {c : Char} (h : c ∈ trim s) : c ∈ s := by
  obtain ⟨u, v, heq, -⟩ := exists_trim s
  rw [heq]
  exact List.mem_append_left _ (List.mem_append_right _ h)

theorem mem_of_mem_trimEnd {s : List Char} {c : Char} (h : c ∈ trimEnd s) : c ∈ s :=
  List.mem_reverse.mp ((List.dropWhile_sublist _).subset (List.mem_reverse.mp h))

theorem trim_cons_of_isBlank {c : Char} (h : isBlank c) (s : List Char) : trim (c :: s) = trim s := by
  rw [trim, trimStart, List.dropWhile_cons_of_pos h, trim, trimStart]

theorem trim_trim (s : List Char) : trim (trim s) = trim s := by
  obtain ⟨u, v, -, -, -, h⟩ := exists_trim s
  exact h.trim_eq

end Catalog.Text
