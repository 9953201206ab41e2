import Catalog.Proofs.Field.Extracted
import Mathlib.Data.List.Pairwise

/-! Which values normalized fields take. A field outside of the normalized category can give its value if
its key is one of the aliases; of several such fields the one with the best alias does, and of those the
first in order. What is derived is never there already, and deriving again adds nothing. -/

namespace Catalog

open Catalog.Order

namespace FieldMap

/-- The place of a key among the aliases of a normalized field, if it is one of them in any ASCII case. -/
def rank? (aliases : List String) (key : String) : Option Nat :=
  aliases.findIdx? fun other => Text.lower key.toList == other.toList

/-- The field has a value and can give it to a normalized field with these aliases. -/
structure Source (fields : FieldMap) (category : String) (aliases : List String) (field : FieldKey)
    (value : String) (rank : Nat) : Prop where
  mem : (field, value) ∈ fields
  outside : field.category ≠ category
  ranked : rank? aliases field.key = some rank

/-- The source with the best alias, of several the first in order of fields. -/
structure BestSource (fields : FieldMap) (category : String) (aliases : List String) (field : FieldKey)
    (value : String) (rank : Nat) : Prop extends Source fields category aliases field value rank where
  best : ∀ other value' rank', Source fields category aliases other value' rank' →
    rank < rank' ∨ rank = rank' ∧ (field = other ∨ field < other)

variable {fields : FieldMap} {category : String} {aliases : List String} {field other : FieldKey}
  {value value' : String} {rank rank' : Nat}

theorem rank?_append {front back : List String} {name : String}
    (h : Text.lower field.key.toList == name.toList)
    (hfront : ∀ other ∈ front, (Text.lower field.key.toList == other.toList) = false) :
    rank? (front ++ name :: back) field.key = some front.length := by
  rw [rank?, List.findIdx?_append, List.findIdx?_eq_none_iff.mpr hfront]
  simp [List.findIdx?_cons, h]

theorem rank?_eq_some_iff : rank? aliases field.key = some rank ↔
    ∃ h : rank < aliases.length, Text.lower field.key.toList = aliases[rank].toList ∧
      ∀ (i : Nat) (hi : i < rank), Text.lower field.key.toList ≠ aliases[i].toList := by
  simp [rank?, List.findIdx?_eq_some_iff_getElem]

/-- No field outside of the category has the alias as its key. -/
theorem underAlias?_eq_none_iff {name : String} : underAlias? fields category name = none ↔
    ∀ e ∈ fields, e.1.category ≠ category → Text.lower e.1.key.toList ≠ name.toList := by
  simp [underAlias?]

theorem BestSource.eq_of (h : BestSource fields category aliases field value rank)
    (h' : BestSource fields category aliases other value' rank') (hfields : Ascending fields) :
    field = other ∧ value = value' := by
  have hfield : field = other := by
    rcases h.best _ _ _ h'.toSource with hlt | ⟨rfl, rfl | hlt⟩
    · rcases h'.best _ _ _ h.toSource with hlt' | ⟨rfl, -⟩ <;> omega
    · rfl
    · rcases h'.best _ _ _ h.toSource with hlt' | ⟨-, rfl | hlt'⟩
      · omega
      · rfl
      · exact absurd hlt' (asymm_of (· < ·) hlt)
  subst hfield
  exact ⟨rfl, hfields.value_eq h.mem h'.mem⟩

/-- The first value found under the aliases, in their order, is that of the best source. -/
theorem exists_bestSource (hfields : Ascending fields)
    (h : aliases.findSome? (underAlias? fields category) = some value) :
    ∃ field rank, BestSource fields category aliases field value rank := by
  obtain ⟨front, name, back, rfl, hfound, hfront⟩ := List.findSome?_eq_some_iff.mp h
  obtain ⟨⟨field, _⟩, hfind, rfl⟩ := Option.map_eq_some_iff.mp hfound
  obtain ⟨hhere, before, after, rfl, hbefore⟩ := List.find?_eq_some_iff_append.mp hfind
  simp only [Bool.and_eq_true, decide_eq_true_eq, beq_iff_eq] at hhere
  have hmem : ∀ v, (field, v) ∈ before ++ (field, v) :: after := fun v => by simp
  have hearlier : ∀ other ∈ front, (Text.lower field.key.toList == other.toList) = false :=
    fun other hother => by
      simpa using underAlias?_eq_none_iff.mp (hfront other hother) _ (hmem _) hhere.1
  refine ⟨field, front.length, ⟨hmem _, hhere.1, rank?_append (by simpa using hhere.2) hearlier⟩, ?_⟩
  intro other value' rank' hother
  obtain ⟨hlength, halias, -⟩ := rank?_eq_some_iff.mp hother.ranked
  rcases Nat.lt_trichotomy front.length rank' with hlt | rfl | hlt
  · exact .inl hlt
  · refine .inr ⟨rfl, ?_⟩
    rw [List.getElem_append_right (Nat.le_refl _)] at halias
    simp only [Nat.sub_self, List.getElem_cons_zero] at halias
    -- Of the fields with this alias the one that was found is the first.
    rcases List.mem_append.mp hother.mem with hmem' | hmem'
    · have hnot := hbefore _ hmem'
      simp [hother.outside, halias] at hnot
    · rcases List.mem_cons.mp hmem' with heq | hmem'
      · exact .inl (congrArg Prod.fst heq).symm
      · exact .inr ((List.pairwise_cons.mp (List.pairwise_append.mp hfields).2.1).1 _ hmem')
  · -- Under a better alias nothing was found.
    rw [List.getElem_append_left hlt] at halias
    have hnone := underAlias?_eq_none_iff.mp (hfront _ (List.getElem_mem hlt)) _ hother.mem hother.outside
    exact absurd halias hnone

theorem findSome?_underAlias?_eq_none_iff :
    aliases.findSome? (underAlias? fields category) = none ↔
      ∀ field value rank, ¬Source fields category aliases field value rank := by
  rw [List.findSome?_eq_none_iff]
  constructor
  · intro h field value rank hsource
    obtain ⟨hlength, halias, -⟩ := rank?_eq_some_iff.mp hsource.ranked
    exact underAlias?_eq_none_iff.mp (h _ (List.getElem_mem hlength)) _ hsource.mem hsource.outside halias
  · intro h name hname
    rw [underAlias?_eq_none_iff]
    rintro ⟨field, value⟩ hmem houtside halias
    have hranked : (rank? aliases field.key).isSome := by
      rw [rank?, List.findIdx?_isSome, List.any_eq_true]
      exact ⟨name, hname, by simpa using halias⟩
    obtain ⟨rank, hrank⟩ := Option.isSome_iff_exists.mp hranked
    exact h field value rank ⟨hmem, houtside, hrank⟩

theorem findSome?_underAlias?_eq_some_iff (hfields : Ascending fields) :
    aliases.findSome? (underAlias? fields category) = some value ↔
      ∃ field rank, BestSource fields category aliases field value rank := by
  refine ⟨exists_bestSource hfields, ?_⟩
  rintro ⟨field, rank, hbest⟩
  cases hfound : aliases.findSome? (underAlias? fields category) with
  | none => exact absurd hbest.toSource (findSome?_underAlias?_eq_none_iff.mp hfound _ _ _)
  | some value' =>
    obtain ⟨other, rank', hother⟩ := exists_bestSource hfields hfound
    rw [(hbest.eq_of hother hfields).2]

/-! ### All normalized fields -/

theorem derived?_eq_some_iff {name : String} {e : FieldKey × String} :
    fields.derived? category name aliases = some e ↔
      e.1 = ⟨category, name⟩ ∧ ⟨category, name⟩ ∉ fields.map (·.1) ∧
        aliases.findSome? (underAlias? fields category) = some e.2 := by
  obtain ⟨field, value⟩ := e
  rw [← get?_eq_none_iff, derived?]
  cases get? ⟨category, name⟩ fields with
  | none =>
    simp only [Option.isSome_none, Bool.false_eq_true, if_false, true_and, Option.map_eq_some_iff,
      Prod.mk.injEq]
    constructor
    · rintro ⟨_, hfound, rfl, rfl⟩
      exact ⟨rfl, hfound⟩
    · rintro ⟨rfl, hfound⟩
      exact ⟨value, hfound, rfl, rfl⟩
  | some _ => simp

theorem nodup_names : (normalizedNames.map (·.1)).Nodup := by decide

theorem nodup_derived : ((normalizedNames.filterMap fun (name, aliases) =>
    fields.derived? category name aliases).map (·.1)).Nodup := by
  rw [List.Nodup, List.pairwise_map, List.pairwise_filterMap]
  refine (List.pairwise_map.mp nodup_names).imp ?_
  intro entry entry' hne e he e' he' heq
  rw [(derived?_eq_some_iff.mp he).1, (derived?_eq_some_iff.mp he').1, FieldKey.mk.injEq] at heq
  exact hne heq.2

/-- A normalized field has a value exactly if it is not given and its best source has this value. -/
theorem get?_normalized_eq_some_iff :
    get? field (fields.normalized category) = some value ↔
      ∃ name aliases, (name, aliases) ∈ normalizedNames ∧ field = ⟨category, name⟩ ∧
        field ∉ fields.map (·.1) ∧ aliases.findSome? (underAlias? fields category) = some value := by
  rw [normalized, get?_keyed_eq_some_iff nodup_derived, List.mem_filterMap]
  constructor
  · rintro ⟨⟨name, aliases⟩, hname, hderived⟩
    obtain ⟨rfl, habsent, hfound⟩ := derived?_eq_some_iff.mp hderived
    exact ⟨name, aliases, hname, rfl, habsent, hfound⟩
  · rintro ⟨name, aliases, hname, rfl, habsent, hfound⟩
    exact ⟨(name, aliases), hname, derived?_eq_some_iff.mpr ⟨rfl, habsent, hfound⟩⟩

theorem aliases_eq_of_mem {name : String} {aliases' : List String}
    (h : (name, aliases) ∈ normalizedNames) (h' : (name, aliases') ∈ normalizedNames) :
    aliases = aliases' :=
  Option.some.inj ((get?_of_mem nodup_names h).symm.trans (get?_of_mem nodup_names h'))

theorem get?_normalized {name : String} (h : (name, aliases) ∈ normalizedNames)
    (habsent : ⟨category, name⟩ ∉ fields.map (·.1)) :
    get? ⟨category, name⟩ (fields.normalized category) =
      aliases.findSome? (underAlias? fields category) := by
  refine Option.ext fun value => ?_
  rw [get?_normalized_eq_some_iff]
  constructor
  · rintro ⟨name', aliases', h', heq, -, hfound⟩
    obtain ⟨-, rfl⟩ := FieldKey.mk.inj heq
    rwa [aliases_eq_of_mem h h']
  · intro hfound
    exact ⟨name, aliases, h, rfl, habsent, hfound⟩

theorem mem_normalized {e : FieldKey × String} (h : e ∈ fields.normalized category) :
    e.1 ∉ fields.map (·.1) ∧ e.1.category = category ∧ e.1.key ∈ normalizedNames.map (·.1) := by
  have hget := (ascending_normalized fields category).get?_eq_some_iff.mpr h
  obtain ⟨name, aliases, hname, heq, habsent, -⟩ := get?_normalized_eq_some_iff.mp hget
  exact ⟨habsent, by rw [heq], List.mem_map.mpr ⟨_, hname, by rw [heq]⟩⟩

theorem nodup_append_normalized (h : Ascending fields) (category : String) :
    ((fields ++ fields.normalized category).map (·.1)).Nodup := by
  rw [List.map_append]
  refine List.nodup_append.mpr ⟨h.nodup, (ascending_normalized fields category).nodup, ?_⟩
  rintro field hexplicit _ hderived rfl
  obtain ⟨e, he, rfl⟩ := List.mem_map.mp hderived
  exact (mem_normalized he).1 hexplicit

/-! ### Deriving again -/

theorem mem_all_iff (h : Ascending fields) {e : FieldKey × String} :
    e ∈ Extracted.all ⟨fields, fields.normalized category⟩ ↔
      e ∈ fields ∨ e ∈ fields.normalized category := by
  rw [Extracted.all_eq_keyed h, ← List.mem_append, ← (ascending_keyed _).get?_eq_some_iff]
  exact get?_keyed_eq_some_iff (nodup_append_normalized h category)

/-- Derived fields are no sources, for they are in the normalized category. -/
theorem source_all_iff (h : Ascending fields) :
    Source (Extracted.all ⟨fields, fields.normalized category⟩) category aliases field value rank ↔
      Source fields category aliases field value rank := by
  constructor
  · rintro ⟨hmem, houtside, hranked⟩
    rcases (mem_all_iff h).mp hmem with hmem | hmem
    · exact ⟨hmem, houtside, hranked⟩
    · exact absurd (mem_normalized hmem).2.1 houtside
  · rintro ⟨hmem, houtside, hranked⟩
    exact ⟨(mem_all_iff h).mpr (.inl hmem), houtside, hranked⟩

theorem normalized_all (h : Ascending fields) (category : String) :
    FieldMap.normalized (Extracted.all ⟨fields, fields.normalized category⟩) category = [] := by
  refine (ascending_normalized _ _).ext .nil fun field => ?_
  rw [get?_nil, Option.eq_none_iff_forall_ne_some]
  intro value hvalue
  obtain ⟨name, aliases, hname, rfl, habsent, hfound⟩ := get?_normalized_eq_some_iff.mp hvalue
  have hall : ∀ e, e ∈ fields ∨ e ∈ fields.normalized category →
      e.1 ≠ ⟨category, name⟩ := fun e he heq =>
    habsent (heq ▸ List.mem_map.mpr ⟨e, (mem_all_iff h).mpr he, rfl⟩)
  have hnone : aliases.findSome? (underAlias? fields category) = none := by
    rw [← get?_normalized hname, get?_eq_none_iff]
    · intro hmem
      obtain ⟨e, he, heq⟩ := List.mem_map.mp hmem
      exact hall e (.inr he) heq
    · intro hmem
      obtain ⟨e, he, heq⟩ := List.mem_map.mp hmem
      exact hall e (.inl he) heq
  have hnone' : aliases.findSome? (underAlias?
      (Extracted.all ⟨fields, fields.normalized category⟩) category) = none := by
    rw [findSome?_underAlias?_eq_none_iff] at hnone ⊢
    exact fun field value rank hsource => hnone field value rank ((source_all_iff h).mp hsource)
  rw [hnone'] at hfound
  cases hfound

end FieldMap

end Catalog
