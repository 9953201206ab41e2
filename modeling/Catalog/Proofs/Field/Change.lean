import Catalog.Field.Change
import Catalog.Proofs.Order.Keyed
import Mathlib.Logic.Basic
import Mathlib.Tactic.ByContra

/-! What changes say, and what they do. A change applies to the value of a field if it starts from that
value, and the changes between two maps, applied one after the other, lead from the first to the
second. -/

namespace Catalog

open Catalog.Order

/-! ### The order of fields -/

instance isStrictTotalOrder_string : IsStrictTotalOrder String (· < ·) where
  irrefl _ := Std.lt_irrefl
  trans _ _ _ := Std.lt_trans
  trichotomous _ _ hab hba := Std.le_antisymm (Std.not_lt.mp hba) (Std.not_lt.mp hab)

theorem FieldKey.lt_iff {a b : FieldKey} :
    a < b ↔ a.category < b.category ∨ a.category = b.category ∧ a.key < b.key := Iff.rfl

instance FieldKey.isStrictTotalOrder : IsStrictTotalOrder FieldKey (· < ·) where
  irrefl a h := by
    rcases FieldKey.lt_iff.mp h with h | ⟨-, h⟩ <;> exact irrefl_of (· < ·) _ h
  trans a b c hab hbc := by
    rw [FieldKey.lt_iff] at *
    rcases hab with hab | ⟨heq, hab⟩ <;> rcases hbc with hbc | ⟨heq', hbc⟩
    · exact .inl (trans_of (· < ·) hab hbc)
    · exact .inl (heq' ▸ hab)
    · exact .inl (heq ▸ hbc)
    · exact .inr ⟨heq.trans heq', trans_of (· < ·) hab hbc⟩
  trichotomous a b hab hba := by
    obtain ⟨categoryA, keyA⟩ := a
    obtain ⟨categoryB, keyB⟩ := b
    rw [FieldKey.lt_iff, not_or, not_and] at hab hba
    obtain rfl := Std.Trichotomous.trichotomous _ _ hab.1 hba.1
    obtain rfl := Std.Trichotomous.trichotomous _ _ (hab.2 rfl) (hba.2 rfl)
    rfl

/-! ### One change -/

namespace Change

/-- The value that a change leads to from a value, where no value counts as one; none if the change does
not start there. -/
def result? : Change → Option String → Option (Option String)
  | .added new, none => some (some new)
  | .updated old new, some value => if value = old ∧ new ≠ old then some (some new) else none
  | .removed old, some value => if value = old then some none else none
  | _, _ => none

/-- The change between two values is the one that leads from the first to the second. -/
theorem between?_eq_some_iff {old new : Option String} {change : Change} :
    between? old new = some change ↔ change.result? old = some new := by
  cases old <;> cases new <;> cases change <;> simp [between?, result?] <;> grind

theorem between?_eq_none_iff {old new : Option String} : between? old new = none ↔ old = new := by
  cases old <;> cases new <;> simp [between?]

end Change

/-! ### All changes between two maps -/

namespace FieldMap

/-- The map with a value of a field, or without one. -/
def assign (fields : FieldMap) (field : FieldKey) : Option String → FieldMap
  | some value => put field value fields
  | none => erase field fields

theorem ascending_assign {fields : FieldMap} (h : Ascending fields) (field : FieldKey)
    (value : Option String) : Ascending (fields.assign field value) := by
  cases value with
  | none => exact h.erase field
  | some value => exact h.put field value

theorem get?_assign_self (fields : FieldMap) (field : FieldKey) (value : Option String) :
    get? field (fields.assign field value) = value := by
  cases value with
  | none => exact get?_erase_self field fields
  | some value => exact get?_put_self field value fields

theorem get?_assign_of_ne {field other : FieldKey} (h : other ≠ field) (fields : FieldMap)
    (value : Option String) : get? other (fields.assign field value) = get? other fields := by
  cases value with
  | none => exact get?_erase_of_ne h fields
  | some value => exact get?_put_of_ne h value fields

/-- The map after a change of a field; none if the change does not start from the field's value. -/
def alter? (fields : FieldMap) (field : FieldKey) (change : Change) : Option FieldMap :=
  (change.result? (get? field fields)).map (fields.assign field)

/-- The map after some changes, one after the other; none if one of them does not apply when its turn
comes. -/
def alterAll? (fields : FieldMap) : List (FieldKey × Change) → Option FieldMap
  | [] => some fields
  | (field, change) :: rest => (fields.alter? field change).bind fun next => alterAll? next rest

theorem pairwise_fieldsOfBoth (current incoming : FieldMap) :
    (fieldsOfBoth current incoming).Pairwise (· < ·) :=
  List.pairwise_map.mpr (ascending_keyed _)

theorem mem_fieldsOfBoth {current incoming : FieldMap} {field : FieldKey} :
    field ∈ fieldsOfBoth current incoming ↔
      get? field current ≠ none ∨ get? field incoming ≠ none := by
  rw [fieldsOfBoth, mem_map_fst_keyed, List.map_append, List.mem_append, ne_eq, ne_eq,
    get?_eq_none_iff, get?_eq_none_iff, not_not, not_not]

/-- A field is listed with the change between its two values, and not at all where these are equal. -/
theorem mem_changes_iff {current incoming : FieldMap} {field : FieldKey} {change : Change} :
    (field, change) ∈ changes current incoming ↔
      Change.between? (get? field current) (get? field incoming) = some change := by
  simp only [changes, List.mem_filterMap, Option.map_eq_some_iff, Prod.mk.injEq]
  constructor
  · rintro ⟨_, -, _, h, rfl, rfl⟩
    exact h
  · intro h
    refine ⟨field, mem_fieldsOfBoth.mpr ?_, change, h, rfl, rfl⟩
    by_contra hnone
    rw [not_or, not_not, not_not] at hnone
    rw [hnone.1, hnone.2] at h
    simp [Change.between?] at h

theorem map_fst_changes_sublist (current incoming : FieldMap) :
    ((changes current incoming).map (·.1)).Sublist (fieldsOfBoth current incoming) := by
  rw [changes]
  induction fieldsOfBoth current incoming with
  | nil => exact .slnil
  | cons field rest ih =>
    rw [List.filterMap_cons]
    cases Change.between? (get? field current) (get? field incoming) with
    | none => exact ih.cons field
    | some change => exact ih.cons_cons field

/-- The changes stand in ascending order of fields, one for each field that has one. -/
theorem ascending_changes (current incoming : FieldMap) : Ascending (changes current incoming) :=
  List.pairwise_map.mp
    ((pairwise_fieldsOfBoth current incoming).sublist (map_fst_changes_sublist current incoming))

theorem mem_map_fst_changes_iff {current incoming : FieldMap} {field : FieldKey} :
    field ∈ (changes current incoming).map (·.1) ↔ get? field current ≠ get? field incoming := by
  rw [ne_eq, ← Change.between?_eq_none_iff, ← ne_eq, Option.ne_none_iff_exists']
  simp [List.mem_map, mem_changes_iff]

/-- There is nothing to change between equal maps only. -/
theorem changes_eq_nil_iff {current incoming : FieldMap} (hcurrent : Ascending current)
    (hincoming : Ascending incoming) : changes current incoming = [] ↔ current = incoming := by
  constructor
  · intro h
    refine hcurrent.ext hincoming fun field => ?_
    by_contra hne
    have hmem := mem_map_fst_changes_iff.mpr hne
    rw [h] at hmem
    exact List.not_mem_nil hmem
  · rintro rfl
    refine List.eq_nil_iff_forall_not_mem.mpr fun (field, change) h => ?_
    exact mem_map_fst_changes_iff.mp (List.mem_map.mpr ⟨_, h, rfl⟩) rfl

/-- Changes of different fields, each of which starts from the value of its field in a map and leads to
the value in another, apply one after the other. The result has the new values of the fields that are
changed, and the old ones of all others. -/
theorem alterAll?_of_forall_mem {list : List (FieldKey × Change)} {fields incoming : FieldMap}
    (hfields : Ascending fields) (hnodup : (list.map (·.1)).Nodup)
    (h : ∀ e ∈ list, e.2.result? (get? e.1 fields) = some (get? e.1 incoming)) :
    ∃ result, fields.alterAll? list = some result ∧ Ascending result ∧ ∀ field,
      get? field result =
        if field ∈ list.map (·.1) then get? field incoming else get? field fields := by
  induction list generalizing fields with
  | nil => exact ⟨fields, rfl, hfields, fun _ => rfl⟩
  | cons e rest ih =>
    obtain ⟨field, change⟩ := e
    obtain ⟨hnew, hrest⟩ := List.nodup_cons.mp hnodup
    have hstep : fields.alter? field change = some (fields.assign field (get? field incoming)) := by
      rw [alter?, h _ List.mem_cons_self, Option.map_some]
    -- No field occurs twice, so this change does not move the start of a later one.
    have hother : ∀ other ≠ field,
        get? other (fields.assign field (get? field incoming)) = get? other fields :=
      fun other hne => get?_assign_of_ne hne fields _
    obtain ⟨result, hresult, hascending, hget⟩ :=
      ih (ascending_assign hfields field (get? field incoming)) hrest fun e he => by
        rw [hother e.1 fun heq => hnew (heq ▸ List.mem_map.mpr ⟨e, he, rfl⟩)]
        exact h e (List.mem_cons_of_mem _ he)
    refine ⟨result, ?_, hascending, fun other => ?_⟩
    · rw [alterAll?, hstep, Option.bind_some, hresult]
    · rw [hget other, List.map_cons]
      by_cases heq : other = field
      · subst heq
        rw [if_neg hnew, if_pos List.mem_cons_self]
        exact get?_assign_self fields other _
      · rw [hother other heq]
        simp only [List.mem_cons, heq, false_or]

/-- The changes between two maps lead from the first to the second, in whatever order they are applied. -/
theorem alterAll?_of_perm {current incoming : FieldMap} (hcurrent : Ascending current)
    (hincoming : Ascending incoming) {list : List (FieldKey × Change)}
    (h : list.Perm (changes current incoming)) : current.alterAll? list = some incoming := by
  have hfields := h.map (·.1)
  have hnodup : (list.map (·.1)).Nodup :=
    hfields.nodup_iff.mpr (ascending_changes current incoming).nodup
  obtain ⟨result, hresult, hascending, hget⟩ :=
    alterAll?_of_forall_mem hcurrent hnodup fun e he =>
      Change.between?_eq_some_iff.mp (mem_changes_iff.mp (h.mem_iff.mp he))
  rw [hresult, hascending.ext hincoming fun field => ?_]
  rw [hget field]
  split
  · rfl
  · rename_i hsame
    rw [hfields.mem_iff, mem_map_fst_changes_iff, not_not] at hsame
    exact hsame

theorem alterAll?_changes {current incoming : FieldMap} (hcurrent : Ascending current)
    (hincoming : Ascending incoming) :
    current.alterAll? (changes current incoming) = some incoming :=
  alterAll?_of_perm hcurrent hincoming (.refl _)

end FieldMap

end Catalog
