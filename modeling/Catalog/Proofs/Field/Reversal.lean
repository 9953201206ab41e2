import Catalog.Proofs.Field.Change
import Mathlib.Data.List.Nodup

/-! Changes taken back. The changes from one map to another and those that lead back are the same entries,
each taken back, and either list is made of the two values of every field on which the maps differ. -/

namespace Catalog

open Catalog.Order

namespace Change

/-- The change that takes a change back. -/
def inverse : Change → Change
  | .added new => .removed new
  | .updated old new => .updated new old
  | .removed old => .added old

theorem between?_swap (old new : Option String) :
    between? new old = (between? old new).map inverse := by
  cases old with
  | none => cases new <;> rfl
  | some old =>
    cases new with
    | none => rfl
    | some new => by_cases h : old = new <;> simp [between?, h, Ne.symm, inverse]

theorem values_of_between? {old new : Option String} {change : Change}
    (h : between? old new = some change) : change.old? = old ∧ change.new? = new := by
  cases old with
  | none =>
    cases new with
    | none => cases h
    | some new =>
      obtain rfl := Option.some.inj h
      exact ⟨rfl, rfl⟩
  | some old =>
    cases new with
    | none =>
      obtain rfl := Option.some.inj h
      exact ⟨rfl, rfl⟩
    | some new =>
      rw [between?] at h
      split at h
      · cases h
      · obtain rfl := Option.some.inj h
        exact ⟨rfl, rfl⟩

end Change

namespace FieldMap

/-- An entry of a list of changes that takes another one back. -/
def takenBack (entry : FieldKey × Change) : FieldKey × Change := (entry.1, entry.2.inverse)

variable (current incoming : FieldMap)

theorem fieldsOfBoth_comm : fieldsOfBoth incoming current = fieldsOfBoth current incoming := by
  have hnodup : ∀ a b : FieldMap, (fieldsOfBoth a b).Nodup := fun a b => (ascending_keyed (a ++ b)).nodup
  have hperm : (fieldsOfBoth incoming current).Perm (fieldsOfBoth current incoming) := by
    rw [List.perm_ext_iff_of_nodup (hnodup _ _) (hnodup _ _)]
    intro field
    rw [mem_fieldsOfBoth, mem_fieldsOfBoth, or_comm]
  refine hperm.eq_of_pairwise (fun a b _ _ hab hba => ?_) (pairwise_fieldsOfBoth _ _)
    (pairwise_fieldsOfBoth _ _)
  exact absurd hba (asymm_of (· < ·) hab)

theorem changes_swap : changes incoming current = (changes current incoming).map takenBack := by
  rw [changes, changes, fieldsOfBoth_comm, List.map_filterMap]
  apply List.filterMap_congr
  intro field _
  rw [Change.between?_swap, Option.map_map, Option.map_map]
  rfl

theorem count_map_fst_changes (field : FieldKey) :
    ((changes current incoming).map (·.1)).count field =
      if get? field current = get? field incoming then 0 else 1 := by
  split
  · rename_i hsame
    apply List.count_eq_zero_of_not_mem
    rwa [mem_map_fst_changes_iff, not_not]
  · rename_i hdiffer
    exact List.count_eq_one_of_mem (ascending_changes current incoming).nodup
      (mem_map_fst_changes_iff.mpr hdiffer)

variable {current incoming}

/-- The changes between two maps: one for each field whose values differ, with these two values, in
ascending order of fields. They lead from the first map to the second, and taken back from the last one on
they lead back. There are none between equal maps only, and in the other direction they are the same
changes, each taken back. -/
theorem changes_lead_there_and_back (hcurrent : Ascending current) (hincoming : Ascending incoming) :
    (∀ field, ((changes current incoming).map (·.1)).count field =
        if get? field current = get? field incoming then 0 else 1) ∧
      (∀ field change, (field, change) ∈ changes current incoming →
        change.old? = get? field current ∧ change.new? = get? field incoming) ∧
      Ascending (changes current incoming) ∧
      current.alterAll? (changes current incoming) = some incoming ∧
      incoming.alterAll? ((changes current incoming).reverse.map takenBack) = some current ∧
      (changes current incoming = [] ↔ current = incoming) ∧
      changes incoming current = (changes current incoming).map takenBack := by
  have hback : ((changes current incoming).reverse.map takenBack).Perm (changes incoming current) := by
    rw [changes_swap current incoming]
    exact (List.reverse_perm _).map takenBack
  exact ⟨count_map_fst_changes current incoming,
    fun field change h => Change.values_of_between? (mem_changes_iff.mp h),
    ascending_changes current incoming, alterAll?_changes hcurrent hincoming,
    alterAll?_of_perm hincoming hcurrent hback, changes_eq_nil_iff hcurrent hincoming,
    changes_swap current incoming⟩

/-- A field is removed, one is updated, one is added and one stays. -/
theorem changes_lead_there_and_back_of_three :
    let current : FieldMap := [(⟨"a", "k"⟩, "1"), (⟨"b", "k"⟩, "2"), (⟨"b", "m"⟩, "3")]
    let incoming : FieldMap := [(⟨"b", "k"⟩, "4"), (⟨"b", "m"⟩, "3"), (⟨"b.k", ""⟩, "")]
    (Ascending current ∧ Ascending incoming) ∧
      changes current incoming =
        [(⟨"a", "k"⟩, .removed "1"), (⟨"b", "k"⟩, .updated "2" "4"), (⟨"b.k", ""⟩, .added "")] ∧
      changes incoming current =
        [(⟨"a", "k"⟩, .added "1"), (⟨"b", "k"⟩, .updated "4" "2"), (⟨"b.k", ""⟩, .removed "")] ∧
      incoming.alterAll?
        [(⟨"b.k", ""⟩, .removed ""), (⟨"b", "k"⟩, .updated "4" "2"), (⟨"a", "k"⟩, .added "1")] =
          some current := by
  intro current incoming
  have hcurrent : Ascending current := by
    rw [Ascending]
    decide
  have hincoming : Ascending incoming := by
    rw [Ascending]
    decide
  have hchanges : changes current incoming =
      [(⟨"a", "k"⟩, .removed "1"), (⟨"b", "k"⟩, .updated "2" "4"), (⟨"b.k", ""⟩, .added "")] := by
    decide +kernel
  obtain ⟨-, -, -, -, hback, -, hswap⟩ := changes_lead_there_and_back hcurrent hincoming
  rw [hchanges] at hback hswap
  exact ⟨⟨hcurrent, hincoming⟩, hchanges, hswap, hback⟩

end FieldMap

end Catalog
