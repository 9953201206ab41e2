import Catalog.Proofs.Field.Extracted
import Catalog.Proofs.Field.Leaves

/-! Where in a document its fields come from. A field is a member of a category, a member of an object in a
list of objects, or a category of its own, and each non-null value at such a place has a field. -/

namespace Catalog

open Catalog.Json Catalog.Order

/-- A place in a document that can have a field: a member of a category, a member of an object in a list of
objects, or a category that is neither. -/
inductive Place where
  | member (category key : String)
  | listed (category : String) (index : Nat) (key : String)
  | bare (category : String)
deriving DecidableEq

namespace Place

/-- The member of the document that the place lies in. -/
def top : Place → String
  | .member category _ => category
  | .listed category _ _ => category
  | .bare category => category

/-- The name of the field. -/
def field : Place → FieldKey
  | .member category key => ⟨category, key⟩
  | .listed category index key => ⟨FlattenRules.numbered category index, key⟩
  | .bare category => ⟨category, "value"⟩

end Place

namespace FlattenRules

/-- What a locked marker may say without locking its category. -/
inductive Falsy : Value → Prop
  | null : Falsy .null
  | false : Falsy (.bool false)
  | zero {n : Json.Number} : n.isZero → Falsy (.number n)
  | noText : Falsy (.string "")
  | noItems : Falsy (.array [])
  | noMembers : Falsy (.object [])

variable (rules : FlattenRules)

/-- The name begins with the reserved prefix, which is not empty. -/
def Reserved (name : String) : Prop :=
  rules.reservedPrefix ≠ "" ∧ rules.reservedPrefix.toList <+: name.toList

/-- The object is not locked and has a non-null value under a name that is not reserved. -/
structure Keeps (members : List (String × Value)) (key : String) (value : Value) : Prop where
  unlocked : ∀ marker, get? rules.lockedMarker members = some marker → Falsy marker
  unreserved : ¬rules.Reserved key
  mem : (key, value) ∈ members
  present : value ≠ .null

/-- A category has a non-null value at a place. -/
inductive LeafOf (category : String) : Value → Place → Value → Prop
  | member {members : List (String × Value)} {key : String} {value : Value} :
      rules.Keeps members key value → LeafOf category (.object members) (.member category key) value
  | listed {objects : List (List (String × Value))} {index : Nat} {members : List (String × Value)}
      {key : String} {value : Value} :
      objects[index]? = some members → rules.Keeps members key value →
      LeafOf category (.array (objects.map .object)) (.listed category index key) value
  | bare {value : Value} :
      value ≠ .null → (∀ members, value ≠ .object members) →
      (∀ objects : List (List (String × Value)), value ≠ .array (objects.map .object)) →
      LeafOf category value (.bare category) value

/-- A document has a non-null value at a place whose category is not reserved. -/
def LeafAt (document : Value) (place : Place) (value : Value) : Prop :=
  ∃ members whole, document = .object members ∧ (place.top, whole) ∈ members ∧
    ¬rules.Reserved place.top ∧ rules.LeafOf place.top whole place value

variable {rules}

/-! ### Rules -/

theorem holds_eq_false_iff {value : Value} : holds value = false ↔ Falsy value := by
  constructor
  · intro h
    cases value with
    | null => exact .null
    | bool b =>
      obtain rfl : b = false := h
      exact .false
    | number n => exact .zero (by simpa [holds] using h)
    | string s =>
      obtain rfl : s = "" := by simpa [holds] using h
      exact .noText
    | array items =>
      obtain rfl : items = [] := by simpa [holds] using h
      exact .noItems
    | object members =>
      obtain rfl : members = [] := by simpa [holds] using h
      exact .noMembers
  · intro h
    cases h <;> simp_all [holds]

theorem reserves_eq_false_iff {name : String} : rules.reserves name = false ↔ ¬rules.Reserved name := by
  rw [← Bool.not_eq_true, reserves, Reserved]
  simp

theorem locks_eq_false_iff {members : List (String × Value)} :
    rules.locks members = false ↔
      ∀ marker, get? rules.lockedMarker members = some marker → Falsy marker := by
  unfold locks
  cases get? rules.lockedMarker members with
  | none => simp
  | some marker => simp [holds_eq_false_iff]

theorem isSome_wholeText?_iff {value : Value} : (wholeText? value).isSome ↔ value ≠ .null := by
  cases value <;> simp [wholeText?]

theorem isSome_text?_iff {value : Value} : (rules.text? value).isSome ↔ value ≠ .null := by
  rw [text?, Option.isSome_map, isSome_wholeText?_iff]

theorem text?_eq_some_iff {value : Value} {text : String} :
    rules.text? value = some text ↔
      ∃ whole, wholeText? value = some whole ∧ text.toList = whole.toList.take rules.maxValueLength := by
  rw [text?, Option.map_eq_some_iff]
  apply exists_congr
  intro whole
  rw [cut, ← String.toList_inj, String.toList_ofList, eq_comm (a := text.toList)]

theorem objects?_eq_some_iff {items : List Value} {objects : List (List (String × Value))} :
    objects? items = some objects ↔ items = objects.map .object := by
  induction items generalizing objects with
  | nil => cases objects <;> simp [objects?]
  | cons item rest ih =>
    cases item with
    | object members =>
      rw [objects?, Option.map_eq_some_iff]
      constructor
      · rintro ⟨others, hrest, rfl⟩
        rw [ih.mp hrest, List.map_cons]
      · intro h
        cases objects with
        | nil => cases h
        | cons first others =>
          obtain ⟨hfirst, hrest⟩ := List.cons.inj h
          obtain rfl := Value.object.inj hfirst
          exact ⟨others, ih.mpr hrest, rfl⟩
    | _ => cases objects <;> simp [objects?]

/-! ### Places -/

theorem leafOf_object_iff {category : String} {members : List (String × Value)} {place : Place}
    {value : Value} :
    rules.LeafOf category (.object members) place value ↔
      ∃ key, rules.Keeps members key value ∧ place = .member category key := by
  constructor
  · intro h
    cases h with
    | member hkeeps => exact ⟨_, hkeeps, rfl⟩
    | bare _ hobject _ => exact absurd rfl (hobject members)
  · rintro ⟨key, hkeeps, rfl⟩
    exact .member hkeeps

theorem leafOf_list_iff {category : String} {objects : List (List (String × Value))} {place : Place}
    {value : Value} :
    rules.LeafOf category (.array (objects.map .object)) place value ↔
      ∃ index members key, objects[index]? = some members ∧ rules.Keeps members key value ∧
        place = .listed category index key := by
  constructor
  · generalize hwhole : Value.array (objects.map .object) = whole
    intro h
    cases h with
    | member _ => cases hwhole
    | listed hget hkeeps =>
      obtain rfl := (List.map_inj_right fun _ _ => Value.object.inj).mp (Value.array.inj hwhole)
      exact ⟨_, _, _, hget, hkeeps, rfl⟩
    | bare _ _ hlist => exact absurd hwhole.symm (hlist objects)
  · rintro ⟨index, members, key, hget, hkeeps, rfl⟩
    exact .listed hget hkeeps

theorem leafOf_bare_iff {category : String} {whole : Value} (hobject : ∀ members, whole ≠ .object members)
    (hlist : ∀ objects : List (List (String × Value)), whole ≠ .array (objects.map .object))
    {place : Place} {value : Value} :
    rules.LeafOf category whole place value ↔
      value = whole ∧ value ≠ .null ∧ place = .bare category := by
  constructor
  · intro h
    cases h with
    | member _ => exact absurd rfl (hobject _)
    | listed _ _ => exact absurd rfl (hlist _)
    | bare hpresent _ _ => exact ⟨rfl, hpresent, rfl⟩
  · rintro ⟨rfl, hpresent, rfl⟩
    exact .bare hpresent hobject hlist

theorem LeafOf.top_eq {category : String} {whole : Value} {place : Place} {value : Value}
    (h : rules.LeafOf category whole place value) : place.top = category := by
  cases h <;> rfl

theorem LeafOf.present {category : String} {whole : Value} {place : Place} {value : Value}
    (h : rules.LeafOf category whole place value) : value ≠ .null := by
  cases h with
  | member hkeeps => exact hkeeps.present
  | listed _ hkeeps => exact hkeeps.present
  | bare hpresent _ _ => exact hpresent

/-! ### The values of the fields -/

theorem mem_categoryLeaves_iff {category : String} {members : List (String × Value)} {field : FieldKey}
    {value : Value} :
    (field, value) ∈ rules.categoryLeaves category members ∧ value ≠ .null ↔
      ∃ key, rules.Keeps members key value ∧ ⟨category, key⟩ = field := by
  unfold categoryLeaves
  constructor
  · rintro ⟨hmem, hpresent⟩
    split at hmem
    · cases hmem
    · rename_i hlocks
      obtain ⟨⟨key, value⟩, hkept, heq⟩ := List.mem_map.mp hmem
      obtain ⟨rfl, rfl⟩ := Prod.mk.inj heq
      obtain ⟨hmem, hreserves⟩ := List.mem_filter.mp hkept
      refine ⟨key, ⟨?_, ?_, hmem, hpresent⟩, rfl⟩
      · apply locks_eq_false_iff.mp
        simpa using hlocks
      · apply reserves_eq_false_iff.mp
        simpa using hreserves
  · rintro ⟨key, hkeeps, rfl⟩
    refine ⟨?_, hkeeps.present⟩
    have hreserves := reserves_eq_false_iff.mpr hkeeps.unreserved
    rw [locks_eq_false_iff.mpr hkeeps.unlocked, if_neg Bool.false_ne_true]
    exact List.mem_map.mpr ⟨(key, value), List.mem_filter.mpr ⟨hkeeps.mem, by simp [hreserves]⟩, rfl⟩

theorem mem_listLeaves_iff {category : String} {start : Nat} {objects : List (List (String × Value))}
    {leaf : FieldKey × Value} :
    leaf ∈ rules.listLeaves category start objects ↔
      ∃ index members, objects[index]? = some members ∧
        leaf ∈ rules.categoryLeaves (numbered category (start + index)) members := by
  induction objects generalizing start with
  | nil => simp [listLeaves]
  | cons first rest ih =>
    rw [listLeaves, List.mem_append, ih]
    constructor
    · rintro (h | ⟨index, members, hget, h⟩)
      · exact ⟨0, first, rfl, h⟩
      · exact ⟨index + 1, members, hget, by rwa [show start + (index + 1) = start + 1 + index by omega]⟩
    · rintro ⟨index, members, hget, h⟩
      cases index with
      | zero =>
        obtain rfl := Option.some.inj hget
        exact .inl h
      | succ index =>
        exact .inr ⟨index, members, hget, by rwa [show start + 1 + index = start + (index + 1) by omega]⟩

theorem mem_objectLeaves_iff {category : String} {members : List (String × Value)} {field : FieldKey}
    {value : Value} :
    (field, value) ∈ rules.categoryLeaves category members ∧ value ≠ .null ↔
      ∃ place, rules.LeafOf category (.object members) place value ∧ place.field = field := by
  simp only [mem_categoryLeaves_iff, leafOf_object_iff]
  constructor
  · rintro ⟨key, hkeeps, rfl⟩
    exact ⟨.member category key, ⟨key, hkeeps, rfl⟩, rfl⟩
  · rintro ⟨place, ⟨key, hkeeps, rfl⟩, rfl⟩
    exact ⟨key, hkeeps, rfl⟩

theorem mem_objectsLeaves_iff {category : String} {objects : List (List (String × Value))}
    {field : FieldKey} {value : Value} :
    (field, value) ∈ rules.listLeaves category 0 objects ∧ value ≠ .null ↔
      ∃ place, rules.LeafOf category (.array (objects.map .object)) place value ∧
        place.field = field := by
  simp only [mem_listLeaves_iff, leafOf_list_iff, Nat.zero_add]
  constructor
  · rintro ⟨⟨index, members, hget, hmem⟩, hpresent⟩
    obtain ⟨key, hkeeps, rfl⟩ := mem_categoryLeaves_iff.mp ⟨hmem, hpresent⟩
    exact ⟨.listed category index key, ⟨index, members, key, hget, hkeeps, rfl⟩, rfl⟩
  · rintro ⟨place, ⟨index, members, key, hget, hkeeps, rfl⟩, rfl⟩
    obtain ⟨hmem, hpresent⟩ := mem_categoryLeaves_iff.mpr ⟨key, hkeeps, rfl⟩
    exact ⟨⟨index, members, hget, hmem⟩, hpresent⟩

/-- A category that is neither an object nor a list of objects is a leaf of its own. -/
theorem mem_bare_iff {category : String} {whole : Value} (hobject : ∀ members, whole ≠ .object members)
    (hlist : ∀ objects : List (List (String × Value)), whole ≠ .array (objects.map .object))
    {field : FieldKey} {value : Value} :
    (field, value) ∈ [(FieldKey.mk category "value", whole)] ∧ value ≠ .null ↔
      ∃ place, rules.LeafOf category whole place value ∧ place.field = field := by
  simp only [leafOf_bare_iff hobject hlist, List.mem_singleton, Prod.mk.injEq]
  constructor
  · rintro ⟨⟨rfl, rfl⟩, hpresent⟩
    exact ⟨.bare category, ⟨rfl, hpresent, rfl⟩, rfl⟩
  · rintro ⟨place, ⟨rfl, hpresent, rfl⟩, rfl⟩
    exact ⟨⟨rfl, rfl⟩, hpresent⟩

theorem mem_memberLeaves_iff {category : String} {whole : Value} {field : FieldKey} {value : Value} :
    (field, value) ∈ rules.memberLeaves category whole ∧ value ≠ .null ↔
      ∃ place, rules.LeafOf category whole place value ∧ place.field = field := by
  cases whole with
  | object members => exact mem_objectLeaves_iff
  | array items =>
    rw [memberLeaves]
    cases hobjects : objects? items with
    | some objects =>
      obtain rfl := objects?_eq_some_iff.mp hobjects
      exact mem_objectsLeaves_iff
    | none =>
      apply mem_bare_iff
      · simp
      · intro objects heq
        rw [objects?_eq_some_iff.mpr (Value.array.inj heq)] at hobjects
        cases hobjects
  | null => exact mem_bare_iff (by simp) (by simp)
  | bool _ => exact mem_bare_iff (by simp) (by simp)
  | number _ => exact mem_bare_iff (by simp) (by simp)
  | string _ => exact mem_bare_iff (by simp) (by simp)

theorem mem_leaves_iff {document : Value} {field : FieldKey} {value : Value} :
    (field, value) ∈ rules.leaves document ∧ value ≠ .null ↔
      ∃ place, rules.LeafAt document place value ∧ place.field = field := by
  cases document with
  | object members =>
    rw [leaves, List.mem_flatMap]
    constructor
    · rintro ⟨⟨⟨category, whole⟩, hkept, hmem⟩, hpresent⟩
      obtain ⟨hmember, hreserves⟩ := List.mem_filter.mp hkept
      obtain ⟨place, hleaf, hfield⟩ := mem_memberLeaves_iff.mp ⟨hmem, hpresent⟩
      obtain rfl := hleaf.top_eq
      refine ⟨place, ⟨members, whole, rfl, hmember, ?_, hleaf⟩, hfield⟩
      apply reserves_eq_false_iff.mp
      simpa using hreserves
    · rintro ⟨place, ⟨members, whole, heq, hmember, hunreserved, hleaf⟩, hfield⟩
      obtain rfl := Value.object.inj heq
      obtain ⟨hmem, hpresent⟩ := mem_memberLeaves_iff.mpr ⟨place, hleaf, hfield⟩
      refine ⟨⟨(place.top, whole), List.mem_filter.mpr ⟨hmember, ?_⟩, hmem⟩, hpresent⟩
      simp [reserves_eq_false_iff.mpr hunreserved]
  | _ => simp [leaves, LeafAt]

theorem LeafAt.present {document : Value} {place : Place} {value : Value}
    (h : rules.LeafAt document place value) : value ≠ .null := by
  obtain ⟨_, _, -, -, -, hleaf⟩ := h
  exact hleaf.present

/-- A field is made of one of the leaves under its name. -/
theorem leafAt_of_leafOf? {document : Value} {field : FieldKey} {value : Value}
    (h : rules.leafOf? document field = some value) :
    ∃ place, rules.LeafAt document place value ∧ place.field = field := by
  obtain ⟨hmem, htext⟩ := List.mem_filter.mp (List.mem_reverse.mp (mem_of_get? h))
  exact mem_leaves_iff.mp ⟨hmem, isSome_text?_iff.mp htext⟩

theorem exists_leafOf? {document : Value} {place : Place} {value : Value}
    (h : rules.LeafAt document place value) : ∃ last, rules.leafOf? document place.field = some last := by
  apply Option.ne_none_iff_exists'.mp
  rw [leafOf?, ne_eq, get?_eq_none_iff, not_not]
  obtain ⟨hmem, hpresent⟩ := mem_leaves_iff.mpr ⟨place, h, rfl⟩
  refine List.mem_map.mpr ⟨(place.field, value), ?_, rfl⟩
  exact List.mem_reverse.mpr (List.mem_filter.mpr ⟨hmem, isSome_text?_iff.mpr hpresent⟩)

theorem mem_flatten_iff {document : Value} {field : FieldKey} {text : String} :
    (field, text) ∈ flatten rules document ↔
      ∃ value, rules.leafOf? document field = some value ∧ rules.text? value = some text := by
  rw [← (ascending_flatten rules document).get?_eq_some_iff, get?_flatten, Option.bind_eq_some_iff]

/-- What flattening stores. A document has a field where it has a leaf with that field's name, and no other;
each text has at most the greatest length and begins the whole text of such a leaf; and a document that is no
object has no fields. -/
theorem flatten_is_from_leaves (rules : FlattenRules) (document : Value) :
    (∀ field, field ∈ (flatten rules document).map (·.1) ↔
        ∃ place value, rules.LeafAt document place value ∧ place.field = field) ∧
      (∀ field text, (field, text) ∈ flatten rules document →
        text.length ≤ rules.maxValueLength ∧
          ∃ place value whole, rules.LeafAt document place value ∧ place.field = field ∧
            wholeText? value = some whole ∧ text.toList = whole.toList.take rules.maxValueLength) ∧
      ((∀ members, document ≠ .object members) → flatten rules document = []) := by
  refine ⟨fun field => ⟨fun hfield => ?_, ?_⟩, fun field text hmem => ?_, fun hobject => ?_⟩
  · obtain ⟨⟨_, text⟩, hmem, rfl⟩ := List.mem_map.mp hfield
    obtain ⟨value, hlast, -⟩ := mem_flatten_iff.mp hmem
    obtain ⟨place, hleaf, hfield⟩ := leafAt_of_leafOf? hlast
    exact ⟨place, value, hleaf, hfield⟩
  · rintro ⟨place, value, hleaf, rfl⟩
    obtain ⟨last, hlast⟩ := exists_leafOf? hleaf
    obtain ⟨_, hlastLeaf, -⟩ := leafAt_of_leafOf? hlast
    obtain ⟨text, htext⟩ := Option.isSome_iff_exists.mp (isSome_text?_iff.mpr hlastLeaf.present)
    exact List.mem_map.mpr ⟨(place.field, text), mem_flatten_iff.mpr ⟨last, hlast, htext⟩, rfl⟩
  · obtain ⟨value, hlast, htext⟩ := mem_flatten_iff.mp hmem
    obtain ⟨place, hleaf, hfield⟩ := leafAt_of_leafOf? hlast
    obtain ⟨whole, hwhole, hcut⟩ := text?_eq_some_iff.mp htext
    refine ⟨?_, place, value, whole, hleaf, hfield, hwhole, hcut⟩
    rw [← String.length_toList, hcut]
    exact List.length_take_le _ _
  · cases document with
    | object members => exact absurd rfl (hobject members)
    | _ => rfl

/-- Texts are cut after a character, whatever its size in bytes, and a list of objects is a category for each
of them. -/
example :
    let rules : FlattenRules := { maxValueLength := 1 }
    let document : Value := .object
      [("_a", .object [("k", .string "x")]), ("b", .array []), ("c", .array [.string "é", .null]),
        ("d", .array [.object [("_locked", .string ""), ("k", .string "éa")],
          .object [("_locked", .bool true), ("k", .string "x")], .object [("k", .null), ("m", .bool true)]])]
    flatten rules document = [(⟨"c", "value"⟩, "["), (⟨"d_0", "k"⟩, "é"), (⟨"d_2", "m"⟩, "t")] := by
  decide +kernel

/-! ### Single categories -/

theorem category_of_mem_categoryLeaves {category : String} {members : List (String × Value)}
    {leaf : FieldKey × Value} (h : leaf ∈ rules.categoryLeaves category members) :
    leaf.1.category = category := by
  unfold categoryLeaves at h
  split at h
  · cases h
  · obtain ⟨member, -, rfl⟩ := List.mem_map.mp h
    rfl

/-- A leaf has the category of the member of the document that it is in, or a numbered one. -/
theorem category_of_mem_memberLeaves {top : String} {whole : Value} {leaf : FieldKey × Value}
    (h : leaf ∈ rules.memberLeaves top whole) :
    leaf.1.category = top ∨ ∃ index, leaf.1.category = numbered top index := by
  have hbare : ∀ value, leaf ∈ [(FieldKey.mk top "value", value)] → leaf.1.category = top := by
    intro value hmem
    rw [List.mem_singleton.mp hmem]
  unfold memberLeaves at h
  split at h
  · exact .inl (category_of_mem_categoryLeaves h)
  · split at h
    · obtain ⟨index, members, -, hmem⟩ := mem_listLeaves_iff.mp h
      exact .inr ⟨_, category_of_mem_categoryLeaves hmem⟩
    · exact .inl (hbare _ h)
  · exact .inl (hbare _ h)

/-- A category that is an object in order, with no name reserved and no locked marker, is kept as it is. -/
theorem flatten_single {category : String} {members : List (String × Value)}
    (hcategory : rules.reserves category = false)
    (hkeys : ∀ key ∈ members.map (·.1), rules.reserves key = false)
    (hmarker : rules.lockedMarker ∉ members.map (·.1)) (hmembers : Ascending members) :
    flatten rules (.object [(category, .object members)]) =
      members.filterMap fun m => (rules.text? m.2).map fun text => (⟨category, m.1⟩, text) := by
  have hlocks : rules.locks members = false := by
    rw [locks, get?_eq_none_iff.mpr hmarker]
  have hkept : members.filter (fun m => !rules.reserves m.1) = members := by
    refine List.filter_eq_self.mpr fun m hm => ?_
    rw [hkeys m.1 (List.mem_map_of_mem hm)]
    rfl
  have hfound : rules.found [(category, .object members)] =
      members.filterMap fun m => (rules.text? m.2).map fun text => (⟨category, m.1⟩, text) := by
    rw [found, List.filter_cons_of_pos (by rw [hcategory]; rfl)]
    simp [memberFields, categoryFields, hlocks, hkept]
  rw [flatten, hfound]
  apply Ascending.keyed_eq
  refine List.pairwise_filterMap.mpr (hmembers.imp fun hlt e he other hother => ?_)
  obtain ⟨_, -, rfl⟩ := Option.map_eq_some_iff.mp he
  obtain ⟨_, -, rfl⟩ := Option.map_eq_some_iff.mp hother
  exact .inr ⟨rfl, hlt⟩

section Filter

variable (keep : String → Bool) {members : List (String × Value)}

/-- The leaves of some categories are those of the members of the document that have them. -/
theorem filter_leaves
    (h : ∀ m ∈ members, ∀ leaf ∈ rules.memberLeaves m.1 m.2, keep leaf.1.category = keep m.1) :
    (rules.leaves (.object members)).filter (fun leaf => keep leaf.1.category) =
      rules.leaves (.object (members.filter fun m => keep m.1)) := by
  rw [leaves, leaves, List.filter_flatMap]
  induction members with
  | nil => rfl
  | cons m rest ih =>
    have hrest := ih fun other hother => h other (List.mem_cons_of_mem _ hother)
    have hown : (rules.memberLeaves m.1 m.2).filter (fun leaf => keep leaf.1.category) =
        if keep m.1 then rules.memberLeaves m.1 m.2 else [] := by
      split
      · rename_i hkeep
        exact List.filter_eq_self.mpr fun leaf hleaf =>
          (h m List.mem_cons_self leaf hleaf).trans hkeep
      · rename_i hkeep
        refine List.filter_eq_nil_iff.mpr fun leaf hleaf => ?_
        rwa [h m List.mem_cons_self leaf hleaf]
    cases hreserved : rules.reserves m.1 <;> cases hkeep : keep m.1 <;>
      simp only [List.filter_cons, hreserved, hkeep, Bool.not_false, Bool.not_true, Bool.false_eq_true,
        if_true, if_false, List.flatMap_cons, hown, hrest, List.nil_append]

theorem filter_flatten
    (h : ∀ m ∈ members, ∀ leaf ∈ rules.memberLeaves m.1 m.2, keep leaf.1.category = keep m.1) :
    (flatten rules (.object members)).filter (fun e => keep e.1.category) =
      flatten rules (.object (members.filter fun m => keep m.1)) := by
  have hfields : ∀ found : List (FieldKey × Value),
      (found.filterMap rules.fieldOf?).filter (fun e => keep e.1.category) =
        (found.filter fun leaf => keep leaf.1.category).filterMap rules.fieldOf? := by
    intro found
    induction found with
    | nil => rfl
    | cons leaf rest ih =>
      cases htext : rules.text? leaf.2 <;> cases hkeep : keep leaf.1.category <;>
        simp [fieldOf?, htext, hkeep, ih]
  rw [flatten_eq, flatten_eq, ← filter_leaves keep h, ← hfields]
  exact filter_keyed (fun field : FieldKey => keep field.category) _

end Filter

end FlattenRules

end Catalog
