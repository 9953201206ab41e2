import Catalog.Order.Keyed
import Mathlib.Logic.Basic
import Mathlib.Order.Defs.Unbundled

/-! Lists in ascending order of keys are maps: two of them are equal when every key has the same value
in both. What `keyed` makes of a list is such a map. -/

namespace Catalog.Order

variable {κ α : Type} [LT κ]

/-- The keys ascend, so that each occurs once. -/
def Ascending (entries : List (κ × α)) : Prop := entries.Pairwise fun a b => a.1 < b.1

/-- The list without the value under a key. -/
def erase [DecidableEq κ] (key : κ) (entries : List (κ × α)) : List (κ × α) :=
  entries.filter fun e => e.1 ≠ key

theorem Ascending.erase [DecidableEq κ] (key : κ) {entries : List (κ × α)}
    (h : Ascending entries) : Ascending (erase key entries) := List.Pairwise.filter _ h

section Lookup

variable [DecidableEq κ]

omit [LT κ] in
theorem mem_of_get? {key : κ} {value : α} {entries : List (κ × α)}
    (h : get? key entries = some value) : (key, value) ∈ entries := by
  induction entries with
  | nil => simp at h
  | cons e rest ih =>
    obtain ⟨k, v⟩ := e
    rw [get?_cons] at h
    split at h
    · rename_i hk
      simp_all
    · exact List.mem_cons_of_mem _ (ih h)

omit [LT κ] in
theorem get?_eq_none_iff {key : κ} {entries : List (κ × α)} :
    get? key entries = none ↔ key ∉ entries.map (·.1) := by
  induction entries with
  | nil => simp
  | cons e rest ih =>
    obtain ⟨k, v⟩ := e
    rw [get?_cons, List.map_cons, List.mem_cons]
    split <;> grind

omit [LT κ] in
theorem get?_of_mem {key : κ} {value : α} {entries : List (κ × α)}
    (hnodup : (entries.map (·.1)).Nodup) (h : (key, value) ∈ entries) :
    get? key entries = some value := by
  induction entries with
  | nil => simp at h
  | cons e rest ih =>
    obtain ⟨k, v⟩ := e
    obtain ⟨hnew, hrest⟩ := List.nodup_cons.mp hnodup
    rw [get?_cons]
    rcases List.mem_cons.mp h with heq | hmem
    · simp_all
    · have hne : k ≠ key := by
        rintro rfl
        exact hnew (List.mem_map.mpr ⟨_, hmem, rfl⟩)
      rw [if_neg hne]
      exact ih hrest hmem

omit [LT κ] in
theorem get?_append {key : κ} {xs ys : List (κ × α)} :
    get? key (xs ++ ys) = (get? key xs).or (get? key ys) := by
  induction xs with
  | nil => simp
  | cons e rest ih =>
    obtain ⟨k, v⟩ := e
    rw [List.cons_append, get?_cons, get?_cons, ih]
    split <;> rfl

omit [LT κ] in
theorem get?_erase_self (key : κ) (entries : List (κ × α)) : get? key (erase key entries) = none := by
  simp [get?_eq_none_iff, erase]

omit [LT κ] in
/-- Values under other keys may be left out. -/
theorem get?_filter {key : κ} {keep : κ × α → Bool} {entries : List (κ × α)}
    (h : ∀ e ∈ entries, e.1 = key → keep e) :
    get? key (entries.filter keep) = get? key entries := by
  induction entries with
  | nil => rfl
  | cons e rest ih =>
    obtain ⟨k, v⟩ := e
    have hrest := ih fun e he => h e (List.mem_cons_of_mem _ he)
    rw [List.filter_cons, get?_cons]
    split
    · rw [get?_cons, hrest]
    · rename_i hkeep
      have hne : k ≠ key := fun heq => hkeep (h (k, v) List.mem_cons_self heq)
      rw [if_neg hne, hrest]

omit [LT κ] in
theorem get?_erase_of_ne {key other : κ} (h : other ≠ key) (entries : List (κ × α)) :
    get? other (erase key entries) = get? other entries :=
  get?_filter fun e _ he => by simpa [he] using h

end Lookup

section Total

variable [IsStrictTotalOrder κ (· < ·)]

theorem Ascending.nodup {entries : List (κ × α)} (h : Ascending entries) :
    (entries.map (·.1)).Nodup := by
  refine List.pairwise_map.mpr (h.imp fun hlt heq => ?_)
  rw [heq] at hlt
  exact irrefl_of (· < ·) _ hlt

theorem Ascending.nodup_entries {entries : List (κ × α)} (h : Ascending entries) :
    entries.Nodup := List.Pairwise.of_map _ (fun _ _ hne heq => hne (congrArg _ heq)) h.nodup

variable [DecidableEq κ]

theorem Ascending.get?_eq_some_iff {entries : List (κ × α)} (h : Ascending entries) {key : κ}
    {value : α} : get? key entries = some value ↔ (key, value) ∈ entries :=
  ⟨mem_of_get?, get?_of_mem h.nodup⟩

theorem Ascending.value_eq {entries : List (κ × α)} (h : Ascending entries) {key : κ} {first second : α}
    (hfirst : (key, first) ∈ entries) (hsecond : (key, second) ∈ entries) : first = second := by
  have hget := h.get?_eq_some_iff.mpr hfirst
  rw [h.get?_eq_some_iff.mpr hsecond] at hget
  exact (Option.some.inj hget).symm

/-- Maps with the same values are equal. -/
theorem Ascending.ext {xs ys : List (κ × α)} (hx : Ascending xs) (hy : Ascending ys)
    (h : ∀ key, get? key xs = get? key ys) : xs = ys := by
  have hperm : xs.Perm ys := by
    rw [List.perm_ext_iff_of_nodup hx.nodup_entries hy.nodup_entries]
    rintro ⟨key, value⟩
    rw [← hx.get?_eq_some_iff, h, hy.get?_eq_some_iff]
  refine hperm.eq_of_pairwise (fun a b _ _ hab hba => ?_) hx hy
  exact absurd hba (asymm_of (· < ·) hab)

variable [DecidableLT κ]

omit [IsStrictTotalOrder κ (· < ·)] in
theorem mem_put {key : κ} {value : α} {entries : List (κ × α)} {e : κ × α}
    (h : e ∈ put key value entries) : e = (key, value) ∨ e ∈ entries := by
  induction entries with
  | nil => simpa [put] using h
  | cons f rest ih =>
    obtain ⟨k, v⟩ := f
    rw [put] at h
    split at h
    · simpa using h
    · split at h <;> grind

theorem Ascending.put (key : κ) (value : α) {entries : List (κ × α)} (h : Ascending entries) :
    Ascending (put key value entries) := by
  induction entries with
  | nil => exact List.pairwise_singleton _ _
  | cons e rest ih =>
    obtain ⟨k, v⟩ := e
    obtain ⟨hk, hrest⟩ := List.pairwise_cons.mp h
    rw [Order.put]
    split
    · rename_i hlt
      refine List.pairwise_cons.mpr ⟨fun f hf => ?_, h⟩
      rcases List.mem_cons.mp hf with rfl | hf
      · exact hlt
      · exact trans_of (· < ·) hlt (hk f hf)
    · split
      · rename_i heq
        subst heq
        exact List.pairwise_cons.mpr ⟨hk, hrest⟩
      · rename_i hle hne
        refine List.pairwise_cons.mpr ⟨fun f hf => ?_, ih hrest⟩
        rcases mem_put hf with rfl | hf
        · exact (trichotomous_of (· < ·) key k).resolve_left hle |>.resolve_left hne
        · exact hk f hf

theorem Ascending.foldl_put (added : List (κ × α)) {entries : List (κ × α)}
    (h : Ascending entries) :
    Ascending (added.foldl (fun sorted e => Order.put e.1 e.2 sorted) entries) := by
  induction added generalizing entries with
  | nil => exact h
  | cons e rest ih => exact ih (h.put e.1 e.2)

theorem ascending_keyed (entries : List (κ × α)) : Ascending (keyed entries) :=
  Ascending.foldl_put entries .nil

omit [IsStrictTotalOrder κ (· < ·)] in
/-- What is put last under a key is found under it. -/
theorem get?_foldl_put (key : κ) (added entries : List (κ × α)) :
    get? key (added.foldl (fun sorted e => put e.1 e.2 sorted) entries) =
      (get? key added.reverse).or (get? key entries) := by
  induction added generalizing entries with
  | nil => simp
  | cons e rest ih =>
    obtain ⟨k, v⟩ := e
    rw [List.foldl_cons, ih, List.reverse_cons, get?_append, Option.or_assoc]
    by_cases hk : k = key
    · subst hk
      simp [get?_put_self, get?_cons]
    · simp [get?_put_of_ne (Ne.symm hk), get?_cons, hk]

omit [IsStrictTotalOrder κ (· < ·)] in
theorem get?_keyed (key : κ) (entries : List (κ × α)) :
    get? key (keyed entries) = get? key entries.reverse := by
  rw [keyed, get?_foldl_put, get?_nil, Option.or_none]

omit [IsStrictTotalOrder κ (· < ·)] in
theorem mem_map_fst_keyed {key : κ} {entries : List (κ × α)} :
    key ∈ (keyed entries).map (·.1) ↔ key ∈ entries.map (·.1) := by
  rw [← not_iff_not, ← get?_eq_none_iff, get?_keyed, get?_eq_none_iff, List.map_reverse,
    List.mem_reverse]

theorem mem_of_mem_keyed {entries : List (κ × α)} {e : κ × α} (h : e ∈ keyed entries) : e ∈ entries := by
  have hget : get? e.1 (keyed entries) = some e.2 := (ascending_keyed entries).get?_eq_some_iff.mpr h
  rw [get?_keyed] at hget
  exact List.mem_reverse.mp (mem_of_get? hget)

omit [IsStrictTotalOrder κ (· < ·)] in
/-- Where no key occurs twice, the order in which values are put does not matter. -/
theorem get?_keyed_eq_some_iff {entries : List (κ × α)} (h : (entries.map (·.1)).Nodup) {key : κ}
    {value : α} : get? key (keyed entries) = some value ↔ (key, value) ∈ entries := by
  have hreverse : (entries.reverse.map (·.1)).Nodup := by
    rw [List.map_reverse]
    exact (List.reverse_perm _).nodup_iff.mpr h
  rw [get?_keyed, ← List.mem_reverse]
  exact ⟨mem_of_get?, get?_of_mem hreverse⟩

/-- Values may be left out by their keys before or after. -/
theorem filter_keyed (keep : κ → Bool) (entries : List (κ × α)) :
    (keyed entries).filter (fun e => keep e.1) = keyed (entries.filter fun e => keep e.1) := by
  refine Ascending.ext (List.Pairwise.filter _ (ascending_keyed _)) (ascending_keyed _) fun key => ?_
  rw [get?_keyed, ← List.filter_reverse]
  cases hkeep : keep key with
  | true => rw [get?_filter fun e _ he => he ▸ hkeep, get?_filter fun e _ he => he ▸ hkeep, get?_keyed]
  | false =>
    have hnone : ∀ others : List (κ × α), get? key (others.filter fun e => keep e.1) = none := by
      intro others
      rw [get?_eq_none_iff]
      intro hmem
      obtain ⟨e, he, rfl⟩ := List.mem_map.mp hmem
      rw [(List.mem_filter.mp he).2] at hkeep
      cases hkeep
    rw [hnone, hnone]

/-- A map stays as it is. -/
theorem Ascending.keyed_eq {entries : List (κ × α)} (h : Ascending entries) :
    keyed entries = entries := by
  refine (ascending_keyed entries).ext h fun key => Option.ext fun value => ?_
  rw [get?_keyed_eq_some_iff h.nodup, h.get?_eq_some_iff]

end Total

end Catalog.Order
