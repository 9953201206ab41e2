import Catalog.Proofs.Similarity.Nearest
import Mathlib.Data.List.Forall2

/-! How the nearest matches for a hash depend on the threshold and the limit: a larger one only adds
matches at the end. Without a limit each entry within the threshold is found, but for those that have the
text of the hash. -/

namespace Catalog.Similarity

open Catalog.Order

namespace Entry

/-- The entry is within the threshold of the hash that a text stands for. -/
def isNear (text : String) (threshold : Nat) (entry : Entry) : Bool :=
  (BitHash.read? text).any fun query =>
    entry.hash.bitLength == query.bitLength && decide (entry.hash.hamming query ≤ threshold)

/-- The entry as a match for a hash. -/
def asMatch (query : BitHash) (entry : Entry) : Match := ⟨entry.file, entry.hash.hamming query⟩

/-- The match names the file of the entry and the Hamming distance of its hash from that of a text. -/
structure FoundAs (text : String) (entry : Entry) (found : Match) : Prop where
  file : found.file = entry.file
  distance : ∃ query, BitHash.read? text = some query ∧
    entry.hash.bitLength = query.bitLength ∧ found.distance = entry.hash.hamming query

end Entry

/-- The entries that a search for a text finds. -/
def candidates (entries : List Entry) (text : String) (threshold : Nat) : List Entry :=
  entries.filter fun entry => entry.isNear text threshold && entry.text != text

variable {entries : List Entry} {text : String} {query : BitHash} {threshold threshold' : Nat}
  {entry : Entry}

theorem isNear_iff (h : BitHash.read? text = some query) :
    entry.isNear text threshold ↔
      entry.hash.bitLength = query.bitLength ∧ entry.hash.hamming query ≤ threshold := by
  simp [Entry.isNear, h]

theorem mem_candidates :
    entry ∈ candidates entries text threshold ↔
      entry ∈ entries ∧ entry.isNear text threshold ∧ entry.text ≠ text := by
  simp [candidates]

theorem candidates_of_unreadable (h : BitHash.read? text = none) :
    candidates entries text threshold = [] := by
  simp [candidates, Entry.isNear, h]

theorem length_candidates_le (entries : List Entry) (text : String) (threshold : Nat) :
    (candidates entries text threshold).length ≤ entries.length := List.length_filter_le _ _

theorem hit?_eq (h : BitHash.read? text = some query) (entry : Entry) :
    hit? query threshold entry =
      if entry.isNear text threshold then some ⟨entry, entry.hash.hamming query⟩ else none := by
  rw [hit?]
  split
  · rename_i d hd
    obtain ⟨hlength, rfl⟩ := BitHash.distance?_eq_some_iff.mp hd
    have hnear : entry.isNear text threshold ↔ entry.hash.hamming query ≤ threshold := by
      rw [isNear_iff h, and_iff_right hlength]
    simp only [hnear]
  · rename_i hnone
    have hfar : ¬entry.isNear text threshold := by
      rw [isNear_iff h]
      rintro ⟨hlength, -⟩
      rw [BitHash.distance?_eq_some_iff.mpr ⟨hlength, rfl⟩] at hnone
      cases hnone
    rw [if_neg hfar]

theorem hits_eq (h : BitHash.read? text = some query) (entries : List Entry) (threshold : Nat) :
    ((entries.filterMap (hit? query threshold)).filter fun hit => hit.entry.text ≠ text).map
        (fun hit => (⟨hit.entry.file, hit.distance⟩ : Match)) =
      (candidates entries text threshold).map (Entry.asMatch query) := by
  induction entries with
  | nil => rfl
  | cons entry rest ih =>
    rw [candidates] at ih
    rw [List.filterMap_cons, hit?_eq h, candidates, List.filter_cons]
    by_cases hnear : entry.isNear text threshold
    · by_cases htext : entry.text = text
      · simpa [hnear, htext] using ih
      · simpa [hnear, htext, Entry.asMatch] using ih
    · simpa [hnear] using ih

/-- An index of either kind gives the entries that are candidates, in order of distance and file. -/
theorem nearest_eq (h : BitHash.read? text = some query) (kind : IndexKind) (entries : List Entry)
    (threshold limit : Nat) :
    nearest (.ofEntries kind entries) text threshold limit =
      (sortBy Match.precedes
        ((candidates entries text threshold).map (Entry.asMatch query))).take limit := by
  have hperm := (Index.within_ofEntries_perm kind entries query threshold).filter
    fun hit => hit.entry.text ≠ text
  rw [nearest, h]
  dsimp only
  rw [ranked_eq_of_perm hperm, ranked, hits_eq h]

theorem nearest_of_unreadable (h : BitHash.read? text = none) (index : Index)
    (threshold limit : Nat) : nearest index text threshold limit = [] := by
  rw [nearest, h]

/-- What is within a threshold is what is so among the entries within a larger one. -/
theorem candidates_eq_filter (h : BitHash.read? text = some query) (hle : threshold ≤ threshold')
    (entries : List Entry) :
    (candidates entries text threshold).map (Entry.asMatch query) =
      ((candidates entries text threshold').map (Entry.asMatch query)).filter
        fun found => found.distance ≤ threshold := by
  have hnear : ∀ entry : Entry, entry.isNear text threshold =
      (decide (entry.hash.hamming query ≤ threshold) && entry.isNear text threshold') := by
    intro entry
    rw [Bool.eq_iff_iff, Bool.and_eq_true, decide_eq_true_eq, isNear_iff h, isNear_iff h]
    omega
  rw [List.filter_map, candidates, candidates, List.filter_filter]
  refine congrArg (List.map _) (List.filter_congr fun entry _ => ?_)
  rw [hnear entry, Bool.and_assoc]
  rfl

theorem sortBy_candidates_isPrefix (h : BitHash.read? text = some query) (hle : threshold ≤ threshold')
    (entries : List Entry) :
    sortBy Match.precedes ((candidates entries text threshold).map (Entry.asMatch query)) <+:
      sortBy Match.precedes ((candidates entries text threshold').map (Entry.asMatch query)) := by
  rw [candidates_eq_filter h hle, ← filter_sortBy Match.arranges_precedes]
  · refine isPrefix_filter (pairwise_sortBy Match.arranges_precedes _) ?_
    -- What precedes a match is no farther away.
    intro a b hab hb
    simp only [Match.precedes, Bool.or_eq_true, Bool.and_eq_true, decide_eq_true_eq, beq_iff_eq] at *
    omega
  · exact fun _ _ _ _ => Match.eq_of_precedes

/-- The entries in the order in which they are found. -/
theorem exists_found (h : BitHash.read? text = some query) (kind : IndexKind) (entries : List Entry)
    (threshold : Nat) :
    ∃ found : List Entry, found.Perm (candidates entries text threshold) ∧
      ∀ limit, nearest (.ofEntries kind entries) text threshold limit =
        (found.map (Entry.asMatch query)).take limit := by
  refine ⟨sortBy (fun a b => (a.asMatch query).precedes (b.asMatch query))
    (candidates entries text threshold), sortBy_perm _ _, fun limit => ?_⟩
  rw [nearest_eq h, ← map_sortBy]

theorem foundAs_asMatch (h : BitHash.read? text = some query) (hnear : entry.isNear text threshold) :
    entry.FoundAs text (entry.asMatch query) :=
  ⟨rfl, query, h, ((isNear_iff h).mp hnear).1, rfl⟩

/-- For every list of entries and either kind of index: with a larger limit, and with a larger
threshold, the matches are the same ones and then perhaps more. They are in order of distance and file,
and a limit cuts off the end. Without a limit they are one match for each entry that is within the
threshold and has another text, with its Hamming distance; so an entry within the threshold is missing
exactly if it has the text itself. -/
theorem results_grow_by_extension (kind : IndexKind) (entries : List Entry) (text : String) :
    let search := nearest (.ofEntries kind entries) text
    (∀ threshold threshold' limit limit', threshold ≤ threshold' → limit ≤ limit' →
      search threshold limit <+: search threshold limit' ∧
        search threshold limit <+: search threshold' limit) ∧
    (∀ threshold limit,
      ((search threshold limit).Pairwise fun a b =>
        a.distance < b.distance ∨ a.distance = b.distance ∧ a.file ≤ b.file) ∧
      search threshold limit = (search threshold entries.length).take limit ∧
      ∀ found ∈ search threshold limit, found.distance ≤ threshold ∧
        ∃ entry ∈ entries, entry.FoundAs text found ∧ entry.text ≠ text) ∧
    ∀ threshold limit, entries.length ≤ limit → ∃ found : List Entry,
      found.Perm (entries.filter fun entry => entry.isNear text threshold && entry.text != text) ∧
      List.Forall₂ (Entry.FoundAs text) found (search threshold limit) ∧
      ∀ entry ∈ entries, entry.isNear text threshold → (entry ∉ found ↔ entry.text = text) := by
  intro search
  cases h : BitHash.read? text with
  | none =>
    have hsearch : ∀ threshold limit, search threshold limit = [] :=
      nearest_of_unreadable h (.ofEntries kind entries)
    refine ⟨fun _ _ _ _ _ _ => ?_, fun _ _ => ?_, fun threshold _ _ => ⟨[], ?_, ?_, ?_⟩⟩
    · simp [hsearch]
    · simp [hsearch]
    · exact List.Perm.of_eq (candidates_of_unreadable h).symm
    · rw [hsearch]
      exact .nil
    · intro entry _ hnear
      simp [Entry.isNear, h] at hnear
  | some query =>
    have hsearch : ∀ threshold limit, search threshold limit = (sortBy Match.precedes
        ((candidates entries text threshold).map (Entry.asMatch query))).take limit :=
      nearest_eq h kind entries
    refine ⟨fun threshold threshold' limit limit' ht hl => ⟨?_, ?_⟩, fun threshold limit => ⟨?_, ?_, ?_⟩,
      fun threshold limit hlimit => ?_⟩
    · rw [hsearch, hsearch]
      exact List.take_prefix_take_left hl
    · obtain ⟨more, hmore⟩ := sortBy_candidates_isPrefix h ht entries
      rw [hsearch, hsearch, ← hmore, List.take_append]
      exact ⟨_, rfl⟩
    · rw [hsearch]
      refine ((pairwise_sortBy Match.arranges_precedes _).sublist (List.take_sublist _ _)).imp ?_
      intro a b hab
      simpa [Match.precedes] using hab
    · have hlength := length_candidates_le entries text threshold
      rw [hsearch, hsearch, List.take_take, List.take_eq_take_iff, (sortBy_perm _ _).length_eq,
        List.length_map]
      omega
    · intro found hfound
      rw [hsearch] at hfound
      have hmem := (sortBy_perm _ _).mem_iff.mp (List.mem_of_mem_take hfound)
      obtain ⟨entry, hentry, rfl⟩ := List.mem_map.mp hmem
      obtain ⟨hin, hnear, htext⟩ := mem_candidates.mp hentry
      exact ⟨((isNear_iff h).mp hnear).2, entry, hin, foundAs_asMatch h hnear, htext⟩
    · obtain ⟨found, hperm, hfound⟩ := exists_found h kind entries threshold
      have hlength : (found.map (Entry.asMatch query)).length ≤ limit := by
        rw [List.length_map, hperm.length_eq]
        exact Nat.le_trans (length_candidates_le entries text threshold) hlimit
      refine ⟨found, hperm, ?_, fun entry hentry hnear => ?_⟩
      · show List.Forall₂ _ found (nearest _ text threshold limit)
        rw [hfound, List.take_of_length_le hlength, List.forall₂_map_right_iff, List.forall₂_same]
        intro entry hentry
        exact foundAs_asMatch h (mem_candidates.mp (hperm.mem_iff.mp hentry)).2.1
      · rw [hperm.mem_iff, mem_candidates]
        simp [hentry, hnear]

/-- An entry with the text of the hash is left out; one that spells the same bits in capitals is found
first, and a larger limit or threshold adds the others after it. -/
theorem results_grow_after_twin :
    let entries : List Entry :=
      [⟨1, "0000", ⟨[0, 0]⟩⟩, ⟨2, "00ae", ⟨[0, 0xAE]⟩⟩, ⟨2, "00af", ⟨[0, 0xAF]⟩⟩,
       ⟨3, "00AF", ⟨[0, 0xAF]⟩⟩]
    let search := nearest (.ofEntries .metric entries) "00af"
    (1 ≤ 6 ∧ 1 ≤ 4) ∧ (search 1 1 <+: search 1 4 ∧ search 1 1 <+: search 6 1) ∧
      search 1 1 = [⟨3, 0⟩] ∧ search 1 4 = [⟨3, 0⟩, ⟨2, 1⟩] ∧
      search 6 4 = [⟨3, 0⟩, ⟨2, 1⟩, ⟨1, 6⟩] := by
  intro entries search
  have hgrow := (results_grow_by_extension .metric entries "00af").1
  exact ⟨by decide, hgrow 1 6 1 4 (by decide) (by decide), by decide +kernel, by decide +kernel,
    by decide +kernel⟩

end Catalog.Similarity
