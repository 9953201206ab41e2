import Catalog.Proofs.Field.Places
import Catalog.Proofs.Json.Sorted
import Catalog.Proofs.Number.WrittenForm
import Catalog.Text.Search
import Mathlib.Data.String.Basic

/-! Leaves that meet. Two places of a document have one field only where an object in a list makes a category
that the document has under the same name, and there the leaf of the latter is stored: its name comes after
that of the list. -/

namespace Catalog

open Catalog.Json Catalog.Order

/-! ### Numbered names -/

namespace FlattenRules

theorem toList_numbered (category : String) (index : Nat) :
    (numbered category index).toList = category.toList ++ '_' :: Nat.toDigits 10 index := by
  simp [numbered]

/-- The number is what stands after the last underscore. -/
theorem numbered_inj {category other : String} {index place : Nat}
    (h : numbered category index = numbered other place) : category = other ∧ index = place := by
  have hcut : ∀ (c : String) i, Text.cut? '_' (numbered c i).toList.reverse =
      some ((Nat.toDigits 10 i).reverse, c.toList.reverse) := by
    intro c i
    rw [toList_numbered, List.reverse_append, List.reverse_cons, List.append_assoc]
    apply Text.cut?_append
    intro hmem
    exact absurd (Text.isDigit_of_mem_toDigits (List.mem_reverse.mp hmem)) (by decide)
  have hsame := hcut category index
  rw [h, hcut other place, Option.some.injEq, Prod.mk.injEq, List.reverse_inj, List.reverse_inj] at hsame
  exact ⟨(String.toList_inj.mp hsame.2).symm, (Number.toDigits_injective hsame.1).symm⟩

theorem lt_numbered (category : String) (index : Nat) : category < numbered category index := by
  rw [String.lt_iff_toList_lt, toList_numbered]
  induction category.toList with
  | nil => exact List.nil_lt_cons _ _
  | cons c rest ih => exact List.cons_lt_cons_self.mpr ih

end FlattenRules

/-! ### Places and their leaves -/

namespace Place

/-- The place is in a list of objects. -/
def isListed : Place → Bool
  | .listed _ _ _ => true
  | _ => false

/-- A place outside lists has the field of a place in a list. -/
def Overlays (other place : Place) : Prop :=
  place.isListed ∧ ¬other.isListed ∧ other.field = place.field

theorem Overlays.top_eq {other place : Place} (h : other.Overlays place) :
    other.top = place.field.category := by
  obtain ⟨-, hother, hfield⟩ := h
  rw [← hfield]
  cases other with
  | listed _ _ _ => exact absurd rfl hother
  | member _ _ => rfl
  | bare _ => rfl

/-- A list comes before the categories that overlay its objects. -/
theorem Overlays.top_lt {other place : Place} (h : other.Overlays place) : place.top < other.top := by
  rw [h.top_eq]
  cases place with
  | listed category index key => exact FlattenRules.lt_numbered category index
  | member _ _ => cases h.1
  | bare _ => cases h.1

end Place

namespace FlattenRules

variable {rules : FlattenRules}

theorem LeafOf.value_eq {category : String} {whole : Value} (hwhole : whole.Sorted) {place : Place}
    {first second : Value} (hfirst : rules.LeafOf category whole place first)
    (hsecond : rules.LeafOf category whole place second) : first = second := by
  cases hfirst with
  | member hkeeps =>
    obtain ⟨key, hkeeps', hplace⟩ := leafOf_object_iff.mp hsecond
    obtain ⟨-, rfl⟩ := Place.member.inj hplace
    exact (Value.sorted_object.mp hwhole).1.value_eq hkeeps.mem hkeeps'.mem
  | listed hget hkeeps =>
    obtain ⟨index, members, key, hget', hkeeps', hplace⟩ := leafOf_list_iff.mp hsecond
    obtain ⟨-, rfl, rfl⟩ := Place.listed.inj hplace
    obtain rfl := Option.some.inj (hget.symm.trans hget')
    have hmember := Value.sorted_array.mp hwhole _ (List.mem_map_of_mem (List.mem_of_getElem? hget))
    exact (Value.sorted_object.mp hmember).1.value_eq hkeeps.mem hkeeps'.mem
  | bare _ hobject hlist => exact ((leafOf_bare_iff hobject hlist).mp hsecond).1.symm

/-- Two leaves of one category belong to the same member of the document. -/
theorem LeafAt.exists_whole {document : Value} (hdocument : document.Sorted) {first second : Place}
    {value other : Value} (hfirst : rules.LeafAt document first value)
    (hsecond : rules.LeafAt document second other) (htop : first.top = second.top) :
    ∃ whole, whole.Sorted ∧ rules.LeafOf first.top whole first value ∧
      rules.LeafOf first.top whole second other := by
  obtain ⟨members, whole, rfl, hmem, -, hleaf⟩ := hfirst
  obtain ⟨_, whole', heq, hmem', -, hleaf'⟩ := hsecond
  obtain rfl := Value.object.inj heq
  obtain ⟨hmembers, hsorted⟩ := Value.sorted_object.mp hdocument
  rw [← htop] at hmem' hleaf'
  obtain rfl := hmembers.value_eq hmem hmem'
  exact ⟨whole, hsorted _ hmem, hleaf, hleaf'⟩

theorem LeafAt.value_eq {document : Value} (hdocument : document.Sorted) {place : Place}
    {first second : Value} (hfirst : rules.LeafAt document place first)
    (hsecond : rules.LeafAt document place second) : first = second := by
  obtain ⟨whole, hwhole, hleaf, hleaf'⟩ := hfirst.exists_whole hdocument hsecond rfl
  exact hleaf.value_eq hwhole hleaf'

/-- A category is not an object and something else at once. -/
theorem LeafAt.not_member_and_bare {document : Value} (hdocument : document.Sorted) {category key : String}
    {value other : Value} (hmember : rules.LeafAt document (.member category key) value)
    (hbare : rules.LeafAt document (.bare category) other) : False := by
  obtain ⟨whole, -, hleaf, hleaf'⟩ := hmember.exists_whole hdocument hbare rfl
  cases hleaf with
  | member _ =>
    obtain ⟨_, -, hplace⟩ := leafOf_object_iff.mp hleaf'
    cases hplace

theorem eq_or_overlays {document : Value} (hdocument : document.Sorted) {first second : Place}
    {value other : Value} (hfirst : rules.LeafAt document first value)
    (hsecond : rules.LeafAt document second other) (hfield : first.field = second.field) :
    first = second ∨ first.Overlays second ∨ second.Overlays first := by
  cases first with
  | member category key =>
    cases second with
    | member category' key' =>
      obtain ⟨rfl, rfl⟩ := FieldKey.mk.inj hfield
      exact .inl rfl
    | listed _ _ _ => exact .inr (.inl ⟨rfl, Bool.false_ne_true, hfield⟩)
    | bare category' =>
      obtain ⟨rfl, -⟩ := FieldKey.mk.inj hfield
      exact (hfirst.not_member_and_bare hdocument hsecond).elim
  | listed category index key =>
    cases second with
    | member _ _ => exact .inr (.inr ⟨rfl, Bool.false_ne_true, hfield.symm⟩)
    | listed category' index' key' =>
      obtain ⟨hcategory, rfl⟩ := FieldKey.mk.inj hfield
      obtain ⟨rfl, rfl⟩ := numbered_inj hcategory
      exact .inl rfl
    | bare _ => exact .inr (.inr ⟨rfl, Bool.false_ne_true, hfield.symm⟩)
  | bare category =>
    cases second with
    | member category' key' =>
      obtain ⟨rfl, -⟩ := FieldKey.mk.inj hfield
      exact (hsecond.not_member_and_bare hdocument hfirst).elim
    | listed _ _ _ => exact .inr (.inl ⟨rfl, Bool.false_ne_true, hfield⟩)
    | bare category' =>
      obtain ⟨rfl, -⟩ := FieldKey.mk.inj hfield
      exact .inl rfl

/-! ### The last leaf with a field -/

theorem leafOf?_append (before after : List (String × Value)) (field : FieldKey) :
    rules.leafOf? (.object (before ++ after)) field =
      (rules.leafOf? (.object after) field).or (rules.leafOf? (.object before) field) := by
  simp only [leafOf?, leaves, List.filter_append, List.flatMap_append, List.reverse_append, get?_append]

theorem LeafAt.mono {part members : List (String × Value)} (hpart : part ⊆ members) {place : Place}
    {value : Value} (h : rules.LeafAt (.object part) place value) :
    rules.LeafAt (.object members) place value := by
  obtain ⟨_, whole, heq, hmem, hunreserved, hleaf⟩ := h
  obtain rfl := Value.object.inj heq
  exact ⟨members, whole, rfl, hpart hmem, hunreserved, hleaf⟩

/-- A leaf makes its field if the others with this field are in earlier categories. -/
theorem LeafAt.leafOf?_eq {document : Value} (hdocument : document.Sorted) {place : Place} {value : Value}
    (h : rules.LeafAt document place value)
    (hlast : ∀ other w, rules.LeafAt document other w → other.field = place.field →
      other = place ∨ other.top < place.top) :
    rules.leafOf? document place.field = some value := by
  have hleaf := h
  obtain ⟨members, whole, rfl, hmem, hunreserved, hwhole⟩ := h
  obtain ⟨before, after, rfl⟩ := List.append_of_mem hmem
  have hascending := List.pairwise_append.mp (Value.sorted_object.mp hdocument).1
  have hafter : rules.leafOf? (.object after) place.field = none := by
    rw [Option.eq_none_iff_forall_ne_some]
    intro w hw
    obtain ⟨other, hother, hfield⟩ := leafAt_of_leafOf? hw
    have hlater : place.top < other.top := by
      obtain ⟨_, _, heq, hbehind, -, -⟩ := hother
      obtain rfl := Value.object.inj heq
      exact (List.pairwise_cons.mp hascending.2.1).1 _ hbehind
    rcases hlast other w (hother.mono (by simp)) hfield with rfl | hearlier
    · exact irrefl_of (· < ·) _ hlater
    · exact asymm_of (· < ·) hearlier hlater
  have hown : rules.leafOf? (.object [(place.top, whole)]) place.field = some value := by
    obtain ⟨last, hget⟩ : ∃ last, rules.leafOf? (.object [(place.top, whole)]) place.field = some last :=
      exists_leafOf? ⟨_, whole, rfl, List.mem_singleton_self _, hunreserved, hwhole⟩
    obtain ⟨other, hother, hfield⟩ := leafAt_of_leafOf? hget
    have htop : other.top = place.top := by
      obtain ⟨_, _, heq, hmem, -, -⟩ := hother
      obtain rfl := Value.object.inj heq
      exact (Prod.mk.inj (List.mem_singleton.mp hmem)).1
    have hother' : rules.LeafAt (.object (before ++ (place.top, whole) :: after)) other last :=
      hother.mono (by simp)
    rcases hlast other last hother' hfield with rfl | hearlier
    · rw [hget, hother'.value_eq hdocument hleaf]
    · rw [htop] at hearlier
      exact absurd hearlier (irrefl_of (· < ·) _)
  rw [List.append_cons, leafOf?_append, leafOf?_append, hafter, hown, Option.none_or, Option.some_or]

variable (rules) in
/-- The field has the text of the value, cut to the greatest length. -/
def Stores (document : Value) (field : FieldKey) (value : Value) : Prop :=
  ∃ whole, wholeText? value = some whole ∧ get? field (flatten rules document) = some (rules.cut whole)

variable (rules) in
/-- Every leaf of the document has a field of its own with its own text. -/
def KeepsLeaves (document : Value) : Prop :=
  ∃ own : Place → FieldKey,
    (∀ place value, rules.LeafAt document place value → rules.Stores document (own place) value) ∧
    ∀ first second value other, rules.LeafAt document first value → rules.LeafAt document second other →
      first ≠ second → own first ≠ own second

theorem LeafAt.stores {document : Value} (hdocument : document.Sorted) {place : Place} {value : Value}
    (h : rules.LeafAt document place value)
    (hfree : ∀ other w, rules.LeafAt document other w → ¬other.Overlays place) :
    rules.Stores document place.field value := by
  have hlast : rules.leafOf? document place.field = some value := by
    apply h.leafOf?_eq hdocument
    intro other w hother hfield
    rcases eq_or_overlays hdocument hother h hfield with heq | hover | hunder
    · exact .inl heq
    · exact absurd hover (hfree other w hother)
    · exact .inr hunder.top_lt
  obtain ⟨whole, hwhole⟩ := Option.isSome_iff_exists.mp (isSome_wholeText?_iff.mpr h.present)
  refine ⟨whole, hwhole, ?_⟩
  rw [get?_flatten, hlast, Option.bind_some, text?, hwhole, Option.map_some]

/-- What becomes of the leaves of a document whose objects are maps, as `Value.sorted_of_read?` says of those
that are read. Two leaves have one field only if one is in a list and the other overlays it; a leaf that is not
overlaid has its own text in its field, and an overlaid one has there the text of the leaf that overlays it. -/
theorem leaves_are_kept_unless_overlaid (rules : FlattenRules) {document : Value}
    (hdocument : document.Sorted) :
    (∀ first second value other, rules.LeafAt document first value → rules.LeafAt document second other →
        first.field = second.field →
        first = second ∧ value = other ∨ first.Overlays second ∨ second.Overlays first) ∧
      (∀ place value, rules.LeafAt document place value →
        (∀ other w, rules.LeafAt document other w → ¬other.Overlays place) →
        rules.Stores document place.field value) ∧
      (∀ place other value w, rules.LeafAt document place value → rules.LeafAt document other w →
        other.Overlays place → rules.Stores document place.field w) := by
  refine ⟨fun first second value other hfirst hsecond hfield => ?_,
    fun place value hleaf hfree => hleaf.stores hdocument hfree, ?_⟩
  · rcases eq_or_overlays hdocument hfirst hsecond hfield with rfl | hoverlays
    · exact .inl ⟨rfl, hfirst.value_eq hdocument hsecond⟩
    · exact .inr hoverlays
  · rintro place other value w - hother ⟨-, hfree, hfield⟩
    obtain ⟨whole, hwhole, hget⟩ := hother.stores hdocument fun third v _ hthird => hfree hthird.1
    rw [hfield] at hget
    exact ⟨whole, hwhole, hget⟩

/-- A list of two objects beside a category with the name of the first. -/
def listBesideName : Value :=
  .object [("a", .array ([[("k", .string "x")], [("k", .string "z")]].map .object)),
    ("a_0", .object [("k", .string "y")])]

theorem sorted_listBesideName : listBesideName.Sorted := by
  simp only [listBesideName, Value.Sorted, Value.SortedMembers, Value.SortedItems, Ascending,
    List.map_cons, List.map_nil, List.pairwise_cons]
  decide

theorem leafAt_listBesideName {index : Nat} {text : String}
    (h : [[("k", Value.string "x")], [("k", .string "z")]][index]? = some [("k", .string text)]) :
    ({} : FlattenRules).LeafAt listBesideName (.listed "a" index "k") (.string text) := by
  refine ⟨_, _, rfl, List.mem_cons_self, reserves_eq_false_iff.mp ?_,
    .listed h ⟨?_, reserves_eq_false_iff.mp ?_, List.mem_singleton_self _, ?_⟩⟩
  · show ({} : FlattenRules).reserves "a" = false
    decide
  · simp [get?_cons]
  · decide
  · simp

/-- The text of the first object is lost. -/
theorem leaves_are_not_kept_beside_name :
    listBesideName.Sorted ∧ ¬({} : FlattenRules).KeepsLeaves listBesideName := by
  refine ⟨sorted_listBesideName, ?_⟩
  rintro ⟨own, htext, -⟩
  have hflatten : flatten {} listBesideName = [(⟨"a_0", "k"⟩, "y"), (⟨"a_1", "k"⟩, "z")] := by
    decide +kernel
  obtain ⟨whole, hwhole, hget⟩ := htext (.listed "a" 0 "k") (.string "x") (leafAt_listBesideName rfl)
  obtain rfl := Option.some.inj hwhole
  have hcut : ({} : FlattenRules).cut "x" = "x" := by decide
  rw [hflatten, hcut] at hget
  simpa using mem_of_get? hget

/-- The first object has the text of the category beside the list, and the second its own. -/
theorem leaves_are_kept_beside_name :
    listBesideName.Sorted ∧
      ({} : FlattenRules).Stores listBesideName ⟨"a_0", "k"⟩ (.string "y") ∧
      ({} : FlattenRules).Stores listBesideName ⟨"a_1", "k"⟩ (.string "z") := by
  obtain ⟨-, hfree, hover⟩ := leaves_are_kept_unless_overlaid {} sorted_listBesideName
  have hmember : ({} : FlattenRules).LeafAt listBesideName (.member "a_0" "k") (.string "y") := by
    refine ⟨_, _, rfl, by simp [Place.top], reserves_eq_false_iff.mp ?_,
      .member ⟨?_, reserves_eq_false_iff.mp ?_, List.mem_singleton_self _, ?_⟩⟩
    · decide
    · simp [get?_cons]
    · decide
    · simp
  refine ⟨sorted_listBesideName, ?_, ?_⟩
  · apply hover (.listed "a" 0 "k") _ _ _ (leafAt_listBesideName rfl) hmember
    exact ⟨rfl, Bool.false_ne_true, by decide⟩
  · apply hfree (.listed "a" 1 "k") _ (leafAt_listBesideName rfl)
    rintro other w ⟨members, whole, heq, hmem, -, -⟩ hoverlays
    obtain rfl := Value.object.inj heq
    have htop : other.top = "a_1" := hoverlays.top_eq
    simp [htop] at hmem

end FlattenRules

end Catalog
