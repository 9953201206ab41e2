import Catalog.Proofs.Similarity.Distance
import Catalog.Similarity.MetricTree

/-! The metric index holds exactly what was inserted and finds exactly what is near. `Graded` is what
the search relies on: all entries below an edge are at the distance of that edge from the entry above
it, so that by the triangle inequality a subtree that is passed over holds no hit. -/

namespace Catalog.Similarity

namespace MetricTree

mutual

/-- The entries below each edge of the tree are at its distance from the entry above it. -/
def Graded : MetricTree → Prop
  | node top children => GradedBelow top children

/-- The children are graded, and so are their edges as distances from the entry above. -/
def GradedBelow (top : Entry) : List (Nat × MetricTree) → Prop
  | [] => True
  | (edge, child) :: rest =>
    (∀ entry ∈ child.toList, gap top entry = edge) ∧ child.Graded ∧ GradedBelow top rest

end

theorem toList_leaf (entry : Entry) : (leaf entry).toList = [entry] := rfl

theorem graded_leaf (entry : Entry) : (leaf entry).Graded := by
  simp [leaf, Graded, GradedBelow]

/-! ### Insertion -/

mutual

theorem toList_insert (entry : Entry) (tree : MetricTree) :
    (tree.insert entry).toList.Perm (entry :: tree.toList) := by
  match tree with
  | node top children =>
    rw [insert, toList, toList]
    exact ((childrenToList_insertBelow entry (gap top entry) children).cons top).trans
      (.swap entry top _)

theorem childrenToList_insertBelow (entry : Entry) (distance : Nat)
    (children : List (Nat × MetricTree)) :
    (childrenToList (insertBelow entry distance children)).Perm
      (entry :: childrenToList children) := by
  match children with
  | [] => exact .refl _
  | (edge, child) :: rest =>
    rw [insertBelow, childrenToList]
    split
    · exact (toList_insert entry child).append_right _
    · exact ((childrenToList_insertBelow entry distance rest).append_left _).trans
        List.perm_middle

end

theorem mem_toList_insert {entry other : Entry} {tree : MetricTree} :
    other ∈ (tree.insert entry).toList ↔ other = entry ∨ other ∈ tree.toList := by
  rw [(toList_insert entry tree).mem_iff, List.mem_cons]

mutual

theorem Graded.insert (entry : Entry) {tree : MetricTree} (h : tree.Graded) :
    (tree.insert entry).Graded := by
  match tree, h with
  | node top children, h =>
    rw [MetricTree.insert, Graded]
    rw [Graded] at h
    exact h.insertBelow rfl

/-- A new entry goes below the edge of its distance from the entry above. -/
theorem GradedBelow.insertBelow {top entry : Entry} {distance : Nat}
    {children : List (Nat × MetricTree)} (h : GradedBelow top children)
    (hd : gap top entry = distance) : GradedBelow top (insertBelow entry distance children) := by
  match children, h with
  | [], _ => simp [MetricTree.insertBelow, GradedBelow, toList_leaf, graded_leaf, hd]
  | (edge, child) :: rest, h =>
    rw [GradedBelow] at h
    obtain ⟨hedge, hchild, hrest⟩ := h
    rw [MetricTree.insertBelow]
    split
    · rename_i hsame
      rw [GradedBelow]
      refine ⟨fun other hother => ?_, hchild.insert entry, hrest⟩
      rcases mem_toList_insert.mp hother with rfl | hold
      · rw [hd, hsame]
      · exact hedge other hold
    · rw [GradedBelow]
      exact ⟨hedge, hchild, hrest.insertBelow hd⟩

end

/-! ### Search -/

/-- Below an edge whose distance from a node differs by more than the threshold from the distance of
the node to a hash, no entry is within the threshold of the hash. -/
theorem hit?_eq_none_of_edge {top entry : Entry} {query : BitHash} {threshold edge : Nat}
    (htop : top.hash.bytes.length = query.bytes.length)
    (hentry : entry.hash.bytes.length = query.bytes.length) (hedge : gap top entry = edge)
    (hout : ¬(differingBits top.hash.bytes query.bytes - threshold ≤ edge ∧
      edge ≤ differingBits top.hash.bytes query.bytes + threshold)) :
    hit? query threshold entry = none := by
  have hnear := differingBits_triangle (htop.trans hentry.symm) hentry
  have hfar := differingBits_triangle htop hentry.symm
  rw [differingBits_comm query.bytes] at hfar
  rw [gap] at hedge
  simp only [hit?, BitHash.distance?_of_length_eq hentry]
  rw [if_neg (by omega)]

mutual

/-- A search gives the hits among all entries of the tree, in their order. -/
theorem within_eq_filterMap {query : BitHash} (threshold : Nat) {tree : MetricTree}
    (h : tree.Graded)
    (hlength : ∀ entry ∈ tree.toList, entry.hash.bytes.length = query.bytes.length) :
    tree.within query threshold = tree.toList.filterMap (hit? query threshold) := by
  match tree, h with
  | node top children, h =>
    rw [Graded] at h
    rw [toList] at hlength
    have htop := hlength top List.mem_cons_self
    have hbelow := withinChildren_eq_filterMap threshold h htop fun entry hentry =>
      hlength entry (List.mem_cons_of_mem top hentry)
    simp only [within, toList, BitHash.distance?_of_length_eq htop, List.filterMap_cons, hit?,
      hbelow]
    split <;> simp_all

theorem withinChildren_eq_filterMap {query : BitHash} (threshold : Nat) {top : Entry}
    {children : List (Nat × MetricTree)} (h : GradedBelow top children)
    (htop : top.hash.bytes.length = query.bytes.length)
    (hlength : ∀ entry ∈ childrenToList children,
      entry.hash.bytes.length = query.bytes.length) :
    withinChildren query threshold (differingBits top.hash.bytes query.bytes - threshold)
        (differingBits top.hash.bytes query.bytes + threshold) children =
      (childrenToList children).filterMap (hit? query threshold) := by
  match children, h with
  | [], _ => rfl
  | (edge, child) :: rest, h =>
    rw [GradedBelow] at h
    obtain ⟨hedge, hchild, hrest⟩ := h
    rw [childrenToList] at hlength ⊢
    have hhere : ∀ entry ∈ child.toList, entry.hash.bytes.length = query.bytes.length :=
      fun entry hentry => hlength entry (List.mem_append_left _ hentry)
    have hothers := withinChildren_eq_filterMap threshold hrest htop fun entry hentry =>
      hlength entry (List.mem_append_right _ hentry)
    rw [List.filterMap_append, withinChildren, hothers]
    split
    · rw [within_eq_filterMap threshold hchild hhere]
    · rename_i hout
      -- The search passes over this child, in which the triangle inequality leaves no hit.
      have hnone : child.toList.filterMap (hit? query threshold) = [] := by
        rw [List.filterMap_eq_nil_iff]
        exact fun entry hentry =>
          hit?_eq_none_of_edge htop (hhere entry hentry) (hedge entry hentry) hout
      rw [hnone, List.nil_append]

end

end MetricTree

/-! ### Trees for all lengths -/

namespace Metric

/-- The trees are graded, each holds hashes of the length that it stands under, and no length has two
trees. -/
structure Sound (trees : List (Nat × MetricTree)) : Prop where
  graded : ∀ t ∈ trees, t.2.Graded
  length : ∀ t ∈ trees, ∀ entry ∈ t.2.toList, entry.hash.bytes.length = t.1
  apart : (trees.map (·.1)).Nodup

theorem Sound.nil : Sound [] := ⟨by simp, by simp, by simp⟩

theorem Sound.of_cons {t : Nat × MetricTree} {rest : List (Nat × MetricTree)}
    (h : Sound (t :: rest)) : Sound rest where
  graded other hother := h.graded other (List.mem_cons_of_mem t hother)
  length other hother := h.length other (List.mem_cons_of_mem t hother)
  apart := (List.nodup_cons.mp h.apart).2

theorem Sound.cons {length : Nat} {tree : MetricTree} {rest : List (Nat × MetricTree)}
    (h : Sound rest) (hgraded : tree.Graded)
    (hlength : ∀ entry ∈ tree.toList, entry.hash.bytes.length = length)
    (hnew : length ∉ rest.map (·.1)) : Sound ((length, tree) :: rest) where
  graded t ht := by
    rcases List.mem_cons.mp ht with rfl | ht
    · exact hgraded
    · exact h.graded t ht
  length t ht := by
    rcases List.mem_cons.mp ht with rfl | ht
    · exact hlength
    · exact h.length t ht
  apart := List.nodup_cons.mpr ⟨hnew, h.apart⟩

theorem mem_lengths_insertInto {entry : Entry} {trees : List (Nat × MetricTree)} {length : Nat} :
    length ∈ (insertInto entry trees).map (·.1) ↔
      length = entry.hash.bytes.length ∨ length ∈ trees.map (·.1) := by
  induction trees with
  | nil => simp [insertInto]
  | cons t rest ih =>
    rw [insertInto]
    split
    · rename_i hsame
      simp [← hsame]
    · rw [List.map_cons, List.map_cons, List.mem_cons, List.mem_cons, ih]
      grind

theorem Sound.insertInto (entry : Entry) {trees : List (Nat × MetricTree)} (h : Sound trees) :
    Sound (insertInto entry trees) := by
  induction trees with
  | nil =>
    exact Sound.nil.cons (MetricTree.graded_leaf entry)
      (fun other hother => by
        rw [MetricTree.toList_leaf, List.mem_singleton] at hother
        rw [hother])
      (by simp)
  | cons t rest ih =>
    obtain ⟨length, tree⟩ := t
    have hgraded := h.graded _ List.mem_cons_self
    have hlength := h.length _ List.mem_cons_self
    have hnew := (List.nodup_cons.mp h.apart).1
    rw [Metric.insertInto]
    split
    · rename_i hsame
      refine h.of_cons.cons (hgraded.insert entry) (fun other hother => ?_) hnew
      rcases MetricTree.mem_toList_insert.mp hother with rfl | hold
      · exact hsame.symm
      · exact hlength other hold
    · rename_i hother
      refine (ih h.of_cons).cons hgraded hlength fun hmem => ?_
      rcases mem_lengths_insertInto.mp hmem with hsame | hold
      · exact hother hsame
      · exact hnew hold

theorem toList_insertInto (entry : Entry) (trees : List (Nat × MetricTree)) :
    (toList ⟨insertInto entry trees⟩).Perm (entry :: toList ⟨trees⟩) := by
  induction trees with
  | nil => exact .refl _
  | cons t rest ih =>
    obtain ⟨length, tree⟩ := t
    rw [insertInto]
    split
    · exact (MetricTree.toList_insert entry tree).append_right _
    · exact (ih.append_left _).trans List.perm_middle

/-- Hashes of another length have no distance from the one that is looked for. -/
theorem filterMap_hit?_of_length_ne {query : BitHash} (threshold : Nat) {entries : List Entry}
    (h : ∀ entry ∈ entries, entry.hash.bytes.length ≠ query.bytes.length) :
    entries.filterMap (hit? query threshold) = [] := by
  rw [List.filterMap_eq_nil_iff]
  intro entry hentry
  simp only [hit?, BitHash.distance?_of_length_ne (h entry hentry)]

/-- A search gives the hits among all entries of the index. -/
theorem within_eq_filterMap (query : BitHash) (threshold : Nat) {trees : List (Nat × MetricTree)}
    (h : Sound trees) :
    within ⟨trees⟩ query threshold = (toList ⟨trees⟩).filterMap (hit? query threshold) := by
  induction trees with
  | nil => rfl
  | cons t rest ih =>
    obtain ⟨length, tree⟩ := t
    have hlength := h.length _ List.mem_cons_self
    have hlist : toList ⟨(length, tree) :: rest⟩ = tree.toList ++ toList ⟨rest⟩ := rfl
    rw [hlist, List.filterMap_append]
    by_cases hsame : length = query.bytes.length
    · have hrest : ∀ entry ∈ toList ⟨rest⟩, entry.hash.bytes.length ≠ query.bytes.length := by
        intro entry hentry heq
        obtain ⟨other, hother, hin⟩ := List.mem_flatMap.mp hentry
        have hother' : other.1 = length :=
          (h.of_cons.length other hother entry hin).symm.trans (heq.trans hsame.symm)
        exact (List.nodup_cons.mp h.apart).1 (List.mem_map.mpr ⟨other, hother, hother'⟩)
      rw [filterMap_hit?_of_length_ne threshold hrest, List.append_nil]
      rw [← MetricTree.within_eq_filterMap threshold (h.graded _ List.mem_cons_self)
        fun entry hentry => (hlength entry hentry).trans hsame]
      simp [within, hsame]
    · have htree : ∀ entry ∈ tree.toList, entry.hash.bytes.length ≠ query.bytes.length :=
        fun entry hentry heq => hsame ((hlength entry hentry).symm.trans heq)
      rw [filterMap_hit?_of_length_ne threshold htree, List.nil_append, ← ih h.of_cons]
      simp [within, hsame]

end Metric

end Catalog.Similarity
