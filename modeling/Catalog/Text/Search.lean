/-! Looking for a piece of text inside another: of characters or of bytes. -/

namespace Catalog.Text

variable {α : Type} [DecidableEq α]

/-- The text before and after the first `c`, if there is one. -/
def cut? (c : α) : List α → Option (List α × List α)
  | [] => none
  | d :: rest =>
    if d = c then some ([], rest) else (cut? c rest).map fun (before, after) => (d :: before, after)

/-- The text before and after the last `c`, if there is one. -/
def cutLast? (c : α) (s : List α) : Option (List α × List α) :=
  (cut? c s.reverse).map fun (after, before) => (before.reverse, after.reverse)

/-- `needle` stands somewhere in the text; the empty needle stands in every text. -/
def occursIn (needle : List α) : List α → Bool
  | [] => needle.isEmpty
  | c :: rest => needle.isPrefixOf (c :: rest) || occursIn needle rest

/-- The text after `start`, if it begins so. -/
def afterStart? (start s : List α) : Option (List α) :=
  if start.isPrefixOf s then some (s.drop start.length) else none

/-- The text before `ending`, if it ends so. -/
def beforeEnd? (ending s : List α) : Option (List α) :=
  if ending.isSuffixOf s then some (s.take (s.length - ending.length)) else none

/-- Cutting at a character loses nothing. -/
theorem append_of_cut? {c : α} {s before after : List α} (h : cut? c s = some (before, after)) :
    s = before ++ c :: after := by
  induction s generalizing before with
  | nil => simp [cut?] at h
  | cons d rest ih =>
    unfold cut? at h
    split at h
    · rename_i hd
      simp only [Option.some.injEq, Prod.mk.injEq] at h
      simp [← h.1, ← h.2, hd]
    · obtain ⟨⟨b, a⟩, hcut, heq⟩ := Option.map_eq_some_iff.1 h
      simp only [Prod.mk.injEq] at heq
      obtain ⟨rfl, rfl⟩ := heq
      simp [ih hcut]

/-- The first `c` stands after a text without one. -/
theorem cut?_append {c : α} {s : List α} (h : c ∉ s) (t : List α) :
    cut? c (s ++ c :: t) = some (s, t) := by
  induction s with
  | nil => simp [cut?]
  | cons d s ih =>
    rw [List.mem_cons, not_or] at h
    simp [cut?, Ne.symm h.1, ih h.2]

theorem not_mem_of_cut? {c : α} {s before after : List α} (h : cut? c s = some (before, after)) :
    c ∉ before := by
  induction s generalizing before with
  | nil => cases h
  | cons d rest ih =>
    unfold cut? at h
    split at h
    · cases h
      exact List.not_mem_nil
    · rename_i hd
      obtain ⟨⟨b, a⟩, hcut, heq⟩ := Option.map_eq_some_iff.1 h
      cases heq
      rw [List.mem_cons, not_or]
      exact ⟨Ne.symm hd, ih hcut⟩

/-- The last `c` stands before a text without one. -/
theorem cutLast?_eq_some_iff {c : α} {s before after : List α} :
    cutLast? c s = some (before, after) ↔ s = before ++ c :: after ∧ c ∉ after := by
  have hback : s = before ++ c :: after ↔ s.reverse = after.reverse ++ c :: before.reverse := by
    rw [← List.reverse_inj]
    simp
  have hmem : c ∈ after ↔ c ∈ after.reverse := List.mem_reverse.symm
  rw [hback, hmem, cutLast?, Option.map_eq_some_iff]
  constructor
  · rintro ⟨⟨back, front⟩, hcut, heq⟩
    cases heq
    rw [List.reverse_reverse, List.reverse_reverse]
    exact ⟨append_of_cut? hcut, not_mem_of_cut? hcut⟩
  · rintro ⟨hs, hnot⟩
    refine ⟨(after.reverse, before.reverse), ?_, by simp⟩
    rw [hs]
    exact cut?_append hnot _

theorem beforeEnd?_eq_some {ending s digits : List α} (h : beforeEnd? ending s = some digits) :
    s = digits ++ ending := by
  unfold beforeEnd? at h
  split at h
  · rename_i hsuffix
    obtain ⟨start, rfl⟩ := List.isSuffixOf_iff_suffix.mp hsuffix
    obtain rfl := Option.some.inj h
    simp
  · cases h

theorem beforeEnd?_append (front ending : List α) : beforeEnd? ending (front ++ ending) = some front := by
  rw [beforeEnd?, if_pos (List.isSuffixOf_iff_suffix.mpr (List.suffix_append _ _))]
  simp

theorem beforeEnd?_eq_none {ending s : List α} (h : ¬ending <:+ s) : beforeEnd? ending s = none := by
  rw [beforeEnd?, if_neg (by rwa [List.isSuffixOf_iff_suffix])]

/-- The needle occurs exactly where it is a contiguous piece of the text. -/
theorem occursIn_iff {needle s : List α} : occursIn needle s = true ↔ needle <:+: s := by
  induction s with
  | nil => simp [occursIn]
  | cons c rest ih =>
    simp [occursIn, ih, List.infix_cons_iff, List.isPrefixOf_iff_prefix]

end Catalog.Text
