import Catalog.Proofs.Order.Sort
import Catalog.Proofs.Similarity.MetricTree
import Catalog.Similarity.Nearest

/-! Both kinds of index answer alike: whatever the order in which the entries came, a search finds the
entries near to a hash, each as often as it was inserted, and the ranked result is the same list. -/

namespace Catalog.Similarity

open Catalog.Order
open scoped List

/-! ### What an index holds -/

theorem Linear.entries_foldl_insert (entries : List Entry) (index : Linear) :
    (entries.foldl Linear.insert index).entries = index.entries ++ entries := by
  induction entries generalizing index with
  | nil => simp
  | cons entry rest ih => simp [ih, Linear.insert]

theorem Metric.sound_foldl_insert (entries : List Entry) {index : Metric}
    (h : Sound index.trees) : Sound (entries.foldl Metric.insert index).trees := by
  induction entries generalizing index with
  | nil => exact h
  | cons entry rest ih => exact ih (h.insertInto entry)

theorem Metric.toList_foldl_insert (entries : List Entry) (index : Metric) :
    (entries.foldl Metric.insert index).toList.Perm (index.toList ++ entries) := by
  induction entries generalizing index with
  | nil => simp
  | cons entry rest ih =>
    calc (rest.foldl Metric.insert (index.insert entry)).toList
      _ ~ (index.insert entry).toList ++ rest := ih _
      _ ~ (entry :: index.toList) ++ rest := (toList_insertInto entry index.trees).append_right _
      _ ~ index.toList ++ entry :: rest := List.perm_middle.symm

namespace Index

theorem ofEntries_linear (entries : List Entry) :
    ofEntries .linear entries = linear (entries.foldl Linear.insert .empty) :=
  List.foldl_hom linear fun _ _ => rfl

theorem ofEntries_metric (entries : List Entry) :
    ofEntries .metric entries = metric (entries.foldl Metric.insert .empty) :=
  List.foldl_hom metric fun _ _ => rfl

/-- An index of either kind finds the hits among the entries it was made of. -/
theorem within_ofEntries_perm (kind : IndexKind) (entries : List Entry) (query : BitHash)
    (threshold : Nat) :
    ((ofEntries kind entries).within query threshold).Perm
      (entries.filterMap (hit? query threshold)) := by
  cases kind with
  | linear =>
    rw [ofEntries_linear, within, Linear.within, Linear.entries_foldl_insert]
    exact .refl _
  | metric =>
    have hsound : Metric.Sound (entries.foldl Metric.insert .empty).trees :=
      Metric.sound_foldl_insert entries .nil
    rw [ofEntries_metric, within]
    exact (List.Perm.of_eq (Metric.within_eq_filterMap query threshold hsound)).trans
      ((Metric.toList_foldl_insert entries .empty).filterMap _)

end Index

/-! ### Ranking -/

theorem Match.arranges_precedes : Arranges Match.precedes where
  total a b := by
    simp only [precedes]
    grind
  trans := by
    intro a b c hab hbc
    simp only [precedes] at *
    grind

theorem Match.eq_of_precedes {a b : Match} (hab : a.precedes b) (hba : b.precedes a) : a = b := by
  obtain ⟨fileA, distanceA⟩ := a
  obtain ⟨fileB, distanceB⟩ := b
  simp only [precedes] at *
  grind

/-- The ranking does not show in which order the hits were found. -/
theorem ranked_eq_of_perm {hits hits' : List Hit} (h : hits.Perm hits') :
    ranked hits = ranked hits' :=
  sortBy_eq_of_perm Match.arranges_precedes (h.map _) fun _ _ _ _ => Match.eq_of_precedes

theorem nearest_eq_of_perm {index index' : Index} {text : String} {threshold : Nat}
    (h : ∀ query, (index.within query threshold).Perm (index'.within query threshold))
    (limit : Nat) : nearest index text threshold limit = nearest index' text threshold limit := by
  unfold nearest
  cases BitHash.read? text with
  | none => rfl
  | some query => exact congrArg (List.take limit) (ranked_eq_of_perm ((h query).filter _))

/-- The metric index finds what the linear one finds, each hit as often, and neither the kind of an
index nor the order in which its entries came shows in the nearest matches. -/
theorem indexes_agree {entries entries' : List Entry} (h : entries.Perm entries') :
    (∀ query threshold,
      ((Index.ofEntries .metric entries').within query threshold).Perm
        ((Index.ofEntries .linear entries).within query threshold)) ∧
    ∀ kind kind' text threshold limit,
      nearest (.ofEntries kind entries) text threshold limit =
        nearest (.ofEntries kind' entries') text threshold limit := by
  have hwithin : ∀ kind kind' query threshold,
      ((Index.ofEntries kind entries).within query threshold).Perm
        ((Index.ofEntries kind' entries').within query threshold) := fun kind kind' query threshold =>
    (Index.within_ofEntries_perm kind entries query threshold).trans
      ((h.filterMap _).trans (Index.within_ofEntries_perm kind' entries' query threshold).symm)
  constructor
  · intro query threshold
    exact (hwithin .linear .metric query threshold).symm
  · intro kind kind' text threshold limit
    exact nearest_eq_of_perm (fun query => hwithin kind kind' query threshold) limit

/-- Hashes of two lengths, one of them stored twice for a file, inserted in two orders. -/
theorem indexes_agree_on_mixed_lengths :
    let entries : List Entry :=
      [⟨4, "00", ⟨[0]⟩⟩, ⟨3, "0001", ⟨[0, 1]⟩⟩, ⟨2, "0007", ⟨[0, 7]⟩⟩, ⟨3, "0001", ⟨[0, 1]⟩⟩]
    entries.Perm entries.reverse ∧
      nearest (.ofEntries .metric entries) "0000" 2 9 =
        nearest (.ofEntries .linear entries.reverse) "0000" 2 9 ∧
      nearest (.ofEntries .linear entries.reverse) "0000" 2 9 = [⟨3, 1⟩, ⟨3, 1⟩] := by
  intro entries
  have hperm : entries.Perm entries.reverse := entries.reverse_perm.symm
  exact ⟨hperm, (indexes_agree hperm).2 .metric .linear "0000" 2 9, by decide +kernel⟩

end Catalog.Similarity
