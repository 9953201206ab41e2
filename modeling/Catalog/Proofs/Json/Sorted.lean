import Catalog.Json.Value
import Catalog.Proofs.Field.Change

/-! Documents in which the members of every object stand in ascending order of their names. Every document
that is read is one. -/

namespace Catalog.Json.Value

open Catalog.Order

mutual

/-- The members of every object stand in ascending order of their names, each name once. -/
def Sorted : Value → Prop
  | .array items => SortedItems items
  | .object members => Ascending members ∧ SortedMembers members
  | _ => True

def SortedItems : List Value → Prop
  | [] => True
  | item :: rest => item.Sorted ∧ SortedItems rest

def SortedMembers : List (String × Value) → Prop
  | [] => True
  | (_, value) :: rest => value.Sorted ∧ SortedMembers rest

end

theorem sortedItems_iff {items : List Value} : SortedItems items ↔ ∀ item ∈ items, item.Sorted := by
  induction items with
  | nil => simp [SortedItems]
  | cons item rest ih => simp [SortedItems, ih]

theorem sortedMembers_iff {members : List (String × Value)} :
    SortedMembers members ↔ ∀ member ∈ members, member.2.Sorted := by
  induction members with
  | nil => simp [SortedMembers]
  | cons member rest ih =>
    obtain ⟨name, value⟩ := member
    simp [SortedMembers, ih]

theorem sorted_array {items : List Value} :
    (Value.array items).Sorted ↔ ∀ item ∈ items, item.Sorted := by
  rw [Sorted, sortedItems_iff]

theorem sorted_object {members : List (String × Value)} :
    (Value.object members).Sorted ↔ Ascending members ∧ ∀ member ∈ members, member.2.Sorted := by
  rw [Sorted, sortedMembers_iff]

theorem sorted_ofMembers {members : List (String × Value)} (h : ∀ member ∈ members, member.2.Sorted) :
    (ofMembers members).Sorted :=
  sorted_object.mpr ⟨ascending_keyed members, fun member hmember => h member (mem_of_mem_keyed hmember)⟩

mutual

theorem sorted_of_ofSyntax? {tree : Syntax} {value : Value} (h : ofSyntax? tree = some value) :
    value.Sorted := by
  cases tree with
  | null => obtain rfl := Option.some.inj h; trivial
  | bool b => obtain rfl := Option.some.inj h; trivial
  | number numeral =>
    obtain ⟨n, -, rfl⟩ := Option.map_eq_some_iff.mp h
    trivial
  | string units =>
    obtain ⟨s, -, rfl⟩ := Option.map_eq_some_iff.mp h
    trivial
  | array items =>
    obtain ⟨values, hvalues, rfl⟩ := Option.map_eq_some_iff.mp h
    exact sorted_array.mpr (sorted_of_itemsOf? hvalues)
  | object members =>
    obtain ⟨read, hread, rfl⟩ := Option.map_eq_some_iff.mp h
    exact sorted_ofMembers (sorted_of_membersOf? hread)

theorem sorted_of_itemsOf? {items : List Syntax} {values : List Value}
    (h : itemsOf? items = some values) : ∀ value ∈ values, value.Sorted := by
  cases items with
  | nil =>
    obtain rfl := Option.some.inj h
    simp
  | cons item rest =>
    simp only [itemsOf?, Option.bind_eq_bind, Option.bind_eq_some_iff] at h
    obtain ⟨value, hvalue, others, hothers, hpure⟩ := h
    obtain rfl := Option.some.inj hpure
    exact List.forall_mem_cons.mpr ⟨sorted_of_ofSyntax? hvalue, sorted_of_itemsOf? hothers⟩

theorem sorted_of_membersOf? {members : List (Quoted × Syntax)} {read : List (String × Value)}
    (h : membersOf? members = some read) : ∀ member ∈ read, member.2.Sorted := by
  cases members with
  | nil =>
    obtain rfl := Option.some.inj h
    simp
  | cons member rest =>
    obtain ⟨name, tree⟩ := member
    simp only [membersOf?, Option.bind_eq_bind, Option.bind_eq_some_iff] at h
    obtain ⟨name, -, value, hvalue, others, hothers, hpure⟩ := h
    obtain rfl := Option.some.inj hpure
    exact List.forall_mem_cons.mpr ⟨sorted_of_ofSyntax? hvalue, sorted_of_membersOf? hothers⟩

end

/-- A document that is read has each name of an object once. -/
theorem sorted_of_read? {text : String} {value : Value} (h : read? text = some value) :
    value.Sorted := by
  rw [read?, Option.bind_eq_bind, Option.bind_eq_some_iff] at h
  obtain ⟨tree, -, h⟩ := h
  split at h
  · exact sorted_of_ofSyntax? h
  · cases h

end Catalog.Json.Value
