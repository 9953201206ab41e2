import Catalog.Order.Sort

/-! Sorting puts a list in order, and there is one way to do so where only equal elements precede each
other. -/

namespace Catalog.Order

variable {α : Type} {le : α → α → Bool}

/-- Any two elements can be put in order, and no chain of them leads back. -/
structure Arranges (le : α → α → Bool) : Prop where
  total : ∀ a b, le a b ∨ le b a
  trans : ∀ {a b c}, le a b → le b c → le a c

theorem pairwise_insertBy (h : Arranges le) (x : α) {ys : List α}
    (hys : ys.Pairwise fun a b => le a b) : (insertBy le x ys).Pairwise fun a b => le a b := by
  induction ys with
  | nil => simp [insertBy]
  | cons y ys ih =>
    obtain ⟨hy, hrest⟩ := List.pairwise_cons.mp hys
    rw [insertBy]
    split
    · rename_i hxy
      refine List.pairwise_cons.mpr ⟨fun z hz => ?_, hys⟩
      rcases List.mem_cons.mp hz with rfl | hz
      · exact hxy
      · exact h.trans hxy (hy z hz)
    · rename_i hxy
      refine List.pairwise_cons.mpr ⟨fun z hz => ?_, ih hrest⟩
      rcases List.mem_cons.mp ((insertBy_perm le x ys).mem_iff.mp hz) with rfl | hz
      · exact (h.total z y).resolve_left hxy
      · exact hy z hz

theorem pairwise_sortBy (h : Arranges le) (xs : List α) :
    (sortBy le xs).Pairwise fun a b => le a b := by
  induction xs with
  | nil => exact .nil
  | cons x xs ih => exact pairwise_insertBy h x ih

/-- An arrangement of the elements that is in order is the one that sorting gives. -/
theorem sortBy_eq_of_pairwise (h : Arranges le) {xs ys : List α} (hperm : ys.Perm xs)
    (hantisymm : ∀ a ∈ xs, ∀ b ∈ xs, le a b → le b a → a = b)
    (hys : ys.Pairwise fun a b => le a b) : sortBy le xs = ys := by
  apply ((sortBy_perm le xs).trans hperm.symm).eq_of_pairwise _ (pairwise_sortBy h xs) hys
  intro a b ha hb
  exact hantisymm a ((sortBy_perm le xs).mem_iff.mp ha) b (hperm.mem_iff.mp hb)

/-- Sorting does not show in which order the elements came. -/
theorem sortBy_eq_of_perm (h : Arranges le) {xs ys : List α} (hperm : xs.Perm ys)
    (hantisymm : ∀ a ∈ xs, ∀ b ∈ xs, le a b → le b a → a = b) : sortBy le xs = sortBy le ys :=
  sortBy_eq_of_pairwise h ((sortBy_perm le ys).trans hperm.symm) hantisymm (pairwise_sortBy h ys)

/-- Elements may be left out before or after sorting. -/
theorem filter_sortBy (h : Arranges le) (keep : α → Bool) {xs : List α}
    (hantisymm : ∀ a ∈ xs, ∀ b ∈ xs, le a b → le b a → a = b) :
    (sortBy le xs).filter keep = sortBy le (xs.filter keep) := by
  refine (sortBy_eq_of_pairwise h ((sortBy_perm le xs).filter keep) ?_ ?_).symm
  · exact fun a ha b hb => hantisymm a (List.mem_filter.mp ha).1 b (List.mem_filter.mp hb).1
  · exact (pairwise_sortBy h xs).filter keep

theorem map_insertBy {β : Type} (f : β → α) (x : β) (ys : List β) :
    (insertBy (fun a b => le (f a) (f b)) x ys).map f = insertBy le (f x) (ys.map f) := by
  induction ys with
  | nil => rfl
  | cons y ys ih =>
    rw [List.map_cons, insertBy, insertBy]
    split
    · rfl
    · rw [List.map_cons, ih]

/-- Elements may be sorted by what they are mapped to. -/
theorem map_sortBy {β : Type} (f : β → α) (xs : List β) :
    (sortBy (fun a b => le (f a) (f b)) xs).map f = sortBy le (xs.map f) := by
  induction xs with
  | nil => rfl
  | cons x xs ih =>
    show (insertBy _ x (sortBy _ xs)).map f = insertBy le (f x) (sortBy le (xs.map f))
    rw [map_insertBy, ih]

/-- In a list in order, elements that are kept together with all before them are its first ones. -/
theorem isPrefix_filter {keep : α → Bool} {xs : List α} (hxs : xs.Pairwise fun a b => le a b)
    (hkeep : ∀ a b, le a b → keep b → keep a) : xs.filter keep <+: xs := by
  induction xs with
  | nil => exact List.prefix_rfl
  | cons x xs ih =>
    obtain ⟨hx, hrest⟩ := List.pairwise_cons.mp hxs
    rw [List.filter_cons]
    split
    · exact List.cons_prefix_cons.mpr ⟨rfl, ih hrest⟩
    · rename_i hout
      have hnone : xs.filter keep = [] :=
        List.filter_eq_nil_iff.mpr fun y hy hkept => hout (hkeep x y (hx y hy) hkept)
      rw [hnone]
      exact List.nil_prefix

/-! ### Latest first -/

section Latest

variable {ι : Type} [LE ι] [DecidableLE ι] [Std.IsLinearOrder ι]

/-- The order by time, the latest first, and of one time by a key, the largest first. -/
theorem arranges_latest (time : α → String) (key : α → ι) :
    Arranges fun a b =>
      decide (time b < time a) || time a == time b && decide (key b ≤ key a) where
  total a b := by
    simp only [Bool.or_eq_true, Bool.and_eq_true, decide_eq_true_eq, beq_iff_eq]
    grind
  trans := by
    intro a b c hab hbc
    simp only [Bool.or_eq_true, Bool.and_eq_true, decide_eq_true_eq, beq_iff_eq] at *
    grind

theorem key_eq_of_latest {time time' : String} {key key' : ι}
    (h : decide (time' < time) || time == time' && decide (key' ≤ key))
    (h' : decide (time < time') || time' == time && decide (key ≤ key')) : key = key' := by
  simp only [Bool.or_eq_true, Bool.and_eq_true, decide_eq_true_eq, beq_iff_eq] at *
  grind

end Latest

end Catalog.Order
