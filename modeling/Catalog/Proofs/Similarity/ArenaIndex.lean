import Catalog.Proofs.Similarity.ArenaSearch
import Catalog.Proofs.Similarity.Nearest

/-! The metric index as arenas, one for each length of hash. Insertion by insertion they draw the trees
of `Metric`, place by place, and so they hold and find what these do. -/

namespace Catalog.Similarity

open Catalog.Order

/-! ### Trees drawn by an arena -/

namespace MetricTree

theorem edges_insertBelow (entry : Entry) (distance : Nat) (children : List (Nat × MetricTree)) :
    (insertBelow entry distance children).map (·.1) =
      if distance ∈ children.map (·.1) then children.map (·.1)
      else children.map (·.1) ++ [distance] := by
  induction children with
  | nil => rfl
  | cons link rest ih =>
    obtain ⟨edge, child⟩ := link
    rw [insertBelow]
    by_cases hsame : edge = distance
    · simp [hsame]
    · rw [if_neg hsame, List.map_cons, List.map_cons, ih]
      by_cases hmem : distance ∈ rest.map (·.1)
      · rw [if_pos hmem, if_pos (List.mem_cons_of_mem _ hmem)]
      · have hnew : distance ∉ edge :: rest.map (·.1) := by
          simpa [Ne.symm hsame] using hmem
        rw [if_neg hmem, if_neg hnew, List.cons_append]

end MetricTree

namespace Arena

mutual

/-- The nodes from a place on draw a tree: the entry is the same, and so are the edges and, below each of
them, the trees. -/
def Draws (arena : Arena) (place : Nat) : MetricTree → Prop
  | .node top children =>
    arena.entries[place]? = some top ∧ (children.map (·.1)).Nodup ∧
      (∀ edge, (∃ child, arena.Edge place edge child) ↔ edge ∈ children.map (·.1)) ∧
      arena.DrawsBelow place children

/-- The nodes below a place draw some trees. -/
def DrawsBelow (arena : Arena) (place : Nat) : List (Nat × MetricTree) → Prop
  | [] => True
  | (edge, tree) :: rest =>
    (∃ child, arena.Edge place edge child ∧ arena.Draws child tree) ∧ arena.DrawsBelow place rest

end

variable {arena : Arena} {entry : Entry} {node : ArenaNode} {place : Nat}

theorem draws_leaf (hentry : arena.entries[place]? = some entry)
    (hlast : ∀ edge child, ¬arena.Edge place edge child) : arena.Draws place (.leaf entry) := by
  simp [MetricTree.leaf, Draws, DrawsBelow, hentry, hlast]

theorem draws_single (entry : Entry) : (single entry).Draws 0 (.leaf entry) :=
  draws_leaf rfl fun edge child hedge => by
    obtain ⟨hlt, hlength⟩ := (isTree_single entry).forward 0 edge child hedge
    exact Nat.lt_irrefl _ (Nat.lt_of_le_of_lt hlt hlength)

theorem draws_attach_new (hland : arena.LandsAt entry place node) :
    (arena.attach entry place).Draws arena.nodes.length (.leaf entry) := by
  refine draws_leaf ?_ fun edge child hedge => ?_
  · rw [getElem?_entries, getElem?_attach_length, Option.map_some]
  · rcases (edge_attach_iff hland).mp hedge with hold | ⟨hsame, -, -⟩
    · exact Nat.lt_irrefl _ hold.lt_length
    · exact Nat.ne_of_gt (lt_length_of_node hland.stands) hsame

mutual

/-- What does not lead to the node that takes a child stays as it is. -/
theorem Draws.attach (hland : arena.LandsAt entry place node) {start : Nat} {tree : MetricTree}
    (hdraws : arena.Draws start tree) (hout : ¬arena.Leads start place) :
    (arena.attach entry place).Draws start tree := by
  match tree, hdraws with
  | .node top children, hdraws =>
    rw [Draws] at hdraws ⊢
    obtain ⟨htop, hnodup, hedges, hbelow⟩ := hdraws
    have hstart : start ≠ place := fun hsame => hout (hsame ▸ .refl)
    refine ⟨?_, hnodup, fun edge => ?_, hbelow.attach hland fun edge child _ hedge hlead =>
      hout (hedge.leads hlead)⟩
    · rw [getElem?_entries_attach_of_lt (List.getElem?_eq_some_iff.mp htop).1, htop]
    · rw [← hedges edge]
      simp [edge_attach_iff hland, hstart]

theorem DrawsBelow.attach (hland : arena.LandsAt entry place node) {start : Nat}
    {children : List (Nat × MetricTree)} (hbelow : arena.DrawsBelow start children)
    (hout : ∀ edge child, edge ∈ children.map (·.1) → arena.Edge start edge child →
      ¬arena.Leads child place) : (arena.attach entry place).DrawsBelow start children := by
  match children, hbelow with
  | [], _ => trivial
  | (edge, tree) :: rest, hbelow =>
    rw [DrawsBelow] at hbelow ⊢
    obtain ⟨⟨child, hedge, hdraws⟩, hrest⟩ := hbelow
    have hchild := hout edge child List.mem_cons_self hedge
    exact ⟨⟨child, (edge_attach_iff hland).mpr (.inl hedge), hdraws.attach hland hchild⟩,
      hrest.attach hland fun other child hother => hout other child (List.mem_cons_of_mem _ hother)⟩

end

/-- The edge that the loop of an insertion takes is the gap between the entries. -/
theorem edgeTo_eq_gap (hlength : node.entry.hash.bitLength = entry.hash.bitLength) :
    node.edgeTo entry = MetricTree.gap node.entry entry := by
  have hdistance := ArenaNode.distance?_eq_edgeTo hlength
  rw [BitHash.distance?_of_length_eq (by simp only [BitHash.bitLength] at hlength; omega),
    Option.some.injEq] at hdistance
  exact hdistance.symm

mutual

/-- From every place on the way of the loop, the arena draws the tree with the entry. -/
theorem Draws.insert (h : arena.IsTree) (hland : arena.LandsAt entry place node)
    (hlength : ∀ other ∈ arena.entries, other.hash.bitLength = entry.hash.bitLength)
    {start : Nat} {tree : MetricTree} (hdraws : arena.Draws start tree)
    (hbefore : arena.Descends entry 0 start) (hafter : arena.Descends entry start place) :
    (arena.attach entry place).Draws start (tree.insert entry) := by
  match tree, hdraws with
  | .node top children, hdraws =>
    rw [Draws] at hdraws
    obtain ⟨htop, hnodup, hedges, hbelow⟩ := hdraws
    have hstart := (List.getElem?_eq_some_iff.mp htop).1
    obtain ⟨own, hown⟩ := exists_node_of_lt (length_entries arena ▸ hstart)
    obtain rfl : own.entry = top := by
      simpa [getElem?_entries_of_node hown] using htop
    have hfree : own.edgeTo entry ∉ children.map (·.1) → arena.descend? entry start = none := by
      intro hnew
      rw [← hedges] at hnew
      exact Option.eq_none_iff_forall_ne_some.mpr fun child hchild =>
        hnew ⟨child, (mem_descend?_iff hown).mp hchild⟩
    rw [MetricTree.insert, ← edgeTo_eq_gap (hlength _ (List.mem_of_getElem? htop)), Draws,
      MetricTree.edges_insertBelow]
    refine ⟨?_, ?_, fun edge => ?_,
      hbelow.insertBelow h hland hlength hnodup hown hbefore hafter hfree⟩
    · rw [getElem?_entries_attach_of_lt hstart, htop]
    · split
      · exact hnodup
      · rename_i hnew
        rw [← List.concat_eq_append]
        exact hnodup.concat hnew
    · rw [exists_edge_attach_iff hland, hedges]
      split
      · rename_i hold
        refine or_iff_left_of_imp ?_
        rintro ⟨rfl, rfl⟩
        obtain rfl := Option.mem_unique hown hland.stands
        exact hold
      · rename_i hnew
        obtain rfl := hafter.eq_of_free (hfree hnew)
        obtain rfl := Option.mem_unique hown hland.stands
        simp

/-- The child below the edge of the entry draws the tree with it, or else the new node draws its leaf;
the other children do not lead to the new node. -/
theorem DrawsBelow.insertBelow (h : arena.IsTree) (hland : arena.LandsAt entry place node)
    (hlength : ∀ other ∈ arena.entries, other.hash.bitLength = entry.hash.bitLength)
    {start : Nat} {own : ArenaNode} {children : List (Nat × MetricTree)}
    (hbelow : arena.DrawsBelow start children) (hnodup : (children.map (·.1)).Nodup)
    (hown : arena.nodes[start]? = some own) (hbefore : arena.Descends entry 0 start)
    (hafter : arena.Descends entry start place)
    (hfree : own.edgeTo entry ∉ children.map (·.1) → arena.descend? entry start = none) :
    (arena.attach entry place).DrawsBelow start
      (MetricTree.insertBelow entry (own.edgeTo entry) children) := by
  match children, hbelow with
  | [], _ =>
    obtain rfl := hafter.eq_of_free (hfree List.not_mem_nil)
    obtain rfl := Option.mem_unique hown hland.stands
    exact ⟨⟨arena.nodes.length, (edge_attach_iff hland).mpr (.inr ⟨rfl, rfl, rfl⟩),
      draws_attach_new hland⟩, trivial⟩
  | (edge, tree) :: rest, hbelow =>
    rw [DrawsBelow] at hbelow
    obtain ⟨⟨child, hedge, hdraws⟩, hrest⟩ := hbelow
    obtain ⟨hnew, hnodup⟩ := List.nodup_cons.mp hnodup
    have hedge' := (edge_attach_iff hland).mpr (.inl hedge)
    rw [MetricTree.insertBelow]
    split
    · rename_i hsame
      subst hsame
      have hturn := (mem_descend?_iff hown).mpr hedge
      refine ⟨⟨child, hedge', hdraws.insert h hland hlength (hbefore.tail hturn)
        (hland.descends_child hafter hturn)⟩, hrest.attach hland fun other child hmem hother =>
          h.not_leads_of_edge_ne hland.path hown hother ?_⟩
      rintro rfl
      exact hnew hmem
    · rename_i hne
      refine ⟨⟨child, hedge',
          hdraws.attach hland (h.not_leads_of_edge_ne hland.path hown hedge hne)⟩,
        hrest.insertBelow h hland hlength hnodup hown hbefore hafter fun hmem => hfree ?_⟩
      simpa [Ne.symm hne] using hmem

end

end Arena

/-! ### Arenas for all lengths -/

/-- The arenas of an index by the number of bits in their hashes, and the number of its entries. -/
structure Arenas where
  trees : List (Nat × Arena)
  size : Nat
deriving DecidableEq, Repr

namespace Arenas

/-- The index without entries. -/
def empty : Arenas := ⟨[], 0⟩

/-- The arena for a length of hash. -/
def arena (index : Arenas) (bits : Nat) : Arena := (get? bits index.trees).getD .empty

/-- The index with one more entry. -/
def insert (index : Arenas) (entry : Entry) : Part Arenas :=
  ((index.arena entry.hash.bitLength).insert entry).map fun arena =>
    ⟨put entry.hash.bitLength arena index.trees, index.size + 1⟩

/-- The index with the given entries, inserted in order. -/
def ofEntries (entries : List Entry) : Part Arenas := entries.foldlM insert empty

/-- All entries within the threshold of the hash. -/
def within (index : Arenas) (query : BitHash) (threshold : Nat) : Part (List Hit) :=
  match get? query.bitLength index.trees with
  | some arena => arena.within query threshold
  | none => .some []

/-- Length by length the arenas draw the trees of the index, from their roots on. -/
def Draws (index : Arenas) (metric : Metric) : Prop :=
  ∀ length, Option.Rel (fun arena tree => arena.Draws 0 tree) (get? (8 * length) index.trees)
    (get? length metric.trees)

/-- Each arena is a tree, its nodes are the entries of its length in the order of insertion, and all
entries are counted. -/
structure Holds (index : Arenas) (inserted : List Entry) : Prop where
  tree : ∀ bits arena, get? bits index.trees = some arena → arena.IsTree
  entries : ∀ bits, (index.arena bits).entries =
    inserted.filter fun entry => entry.hash.bitLength = bits
  size : index.size = inserted.length

variable {index : Arenas} {metric : Metric} {entries : List Entry} {bits : Nat}

theorem holds_empty : empty.Holds [] where
  tree bits arena h := by cases h
  entries _ := rfl
  size := rfl

theorem draws_empty : empty.Draws .empty := fun _ => .none

theorem arena_of_get? {arena : Arena} (h : get? bits index.trees = some arena) :
    index.arena bits = arena := by
  rw [Arenas.arena, h, Option.getD_some]

theorem Holds.bitLength_eq (h : index.Holds entries) {entry : Entry}
    (hentry : entry ∈ (index.arena bits).entries) : entry.hash.bitLength = bits := by
  rw [h.entries] at hentry
  simpa using (List.mem_filter.mp hentry).2

theorem get?_insertInto (entry : Entry) (length : Nat) (trees : List (Nat × MetricTree)) :
    get? length (Metric.insertInto entry trees) =
      if length = entry.hash.bytes.length then
        some (((get? length trees).map (·.insert entry)).getD (.leaf entry))
      else get? length trees := by
  induction trees with
  | nil => simp [Metric.insertInto, get?_cons, eq_comm]
  | cons t rest ih =>
    obtain ⟨other, tree⟩ := t
    rw [Metric.insertInto]
    split <;> simp only [get?_cons, ih] <;> grind

/-- The arena of the entry's length takes it, and draws the tree with it. -/
theorem Holds.exists_insert (h : index.Holds entries) (hdraws : index.Draws metric) (entry : Entry) :
    ∃ arena, (index.arena entry.hash.bitLength).insert entry = .some arena ∧ arena.IsTree ∧
      arena.entries = (index.arena entry.hash.bitLength).entries ++ [entry] ∧
      arena.Draws 0 (((get? entry.hash.bytes.length metric.trees).map (·.insert entry)).getD
        (.leaf entry)) := by
  have hrel := hdraws entry.hash.bytes.length
  rw [← BitHash.bitLength] at hrel
  cases hold : get? entry.hash.bitLength index.trees with
  | none =>
    have harena : index.arena entry.hash.bitLength = .empty := by
      rw [Arenas.arena, hold, Option.getD_none]
    rw [hold] at hrel
    cases hmetric : get? entry.hash.bytes.length metric.trees with
    | some tree => rw [hmetric] at hrel; cases hrel
    | none =>
      rw [harena]
      exact ⟨.single entry, Arena.insert_empty entry, Arena.isTree_single entry, rfl,
        Arena.draws_single entry⟩
  | some arena =>
    rw [arena_of_get? hold]
    rw [hold] at hrel
    cases hmetric : get? entry.hash.bytes.length metric.trees with
    | none => rw [hmetric] at hrel; cases hrel
    | some tree =>
      rw [hmetric] at hrel
      cases hrel with
      | some hroot =>
        have htree := h.tree _ _ hold
        have hlength : ∀ other ∈ arena.entries, other.hash.bitLength = entry.hash.bitLength :=
          fun other hother => h.bitLength_eq (arena_of_get? hold ▸ hother)
        obtain ⟨place, node, hland, hinsert⟩ := htree.exists_insert entry
        exact ⟨arena.attach entry place, hinsert, htree.attach hland hlength,
          Arena.entries_attach arena entry place,
          hroot.insert htree hland hlength .refl hland.path⟩

/-- One insertion has a result, and keeps what the index holds and draws. -/
theorem Holds.insert (h : index.Holds entries) (hdraws : index.Draws metric) (entry : Entry) :
    ∃ index', index.insert entry = .some index' ∧ index'.Holds (entries ++ [entry]) ∧
      index'.Draws (metric.insert entry) := by
  obtain ⟨arena, hinsert, htree, hentries, hroot⟩ := h.exists_insert hdraws entry
  refine ⟨⟨put entry.hash.bitLength arena index.trees, index.size + 1⟩, ?_, ⟨?_, ?_, ?_⟩, ?_⟩
  · rw [Arenas.insert, hinsert, Part.map_some]
  · intro bits other hother
    by_cases hsame : bits = entry.hash.bitLength
    · subst hsame
      rw [get?_put_self, Option.some.injEq] at hother
      exact hother ▸ htree
    · rw [get?_put_of_ne hsame] at hother
      exact h.tree bits other hother
  · intro bits
    rw [List.filter_append, ← h.entries, List.filter_cons, List.filter_nil]
    by_cases hsame : bits = entry.hash.bitLength
    · subst hsame
      rw [arena_of_get? (get?_put_self _ _ _), hentries]
      simp
    · rw [Arenas.arena, get?_put_of_ne hsame, ← Arenas.arena]
      simp [Ne.symm hsame]
  · rw [h.size, List.length_append]
    rfl
  · intro length
    rw [Metric.insert, get?_insertInto]
    split
    · rename_i hsame
      subst hsame
      rw [← BitHash.bitLength, get?_put_self]
      exact .some hroot
    · rename_i hne
      have hbits : 8 * length ≠ entry.hash.bitLength := by
        simp only [BitHash.bitLength]
        omega
      rw [get?_put_of_ne hbits]
      exact hdraws length

/-- Any number of insertions has a result, and keeps what the index holds and draws. -/
theorem Holds.foldlM_insert (h : index.Holds entries) (hdraws : index.Draws metric)
    (added : List Entry) :
    ∃ index', added.foldlM Arenas.insert index = .some index' ∧ index'.Holds (entries ++ added) ∧
      index'.Draws (added.foldl Metric.insert metric) := by
  induction added generalizing index metric entries with
  | nil => exact ⟨index, rfl, by rwa [List.append_nil], hdraws⟩
  | cons entry added ih =>
    obtain ⟨next, hnext, hholds, hdrawn⟩ := h.insert hdraws entry
    obtain ⟨index', hindex', hresult⟩ := ih hholds hdrawn
    refine ⟨index', ?_, ?_⟩
    · rw [List.foldlM_cons, hnext, ← hindex']
      exact Part.bind_some next _
    · simpa using hresult

/-- A search finds the hits among the entries that were inserted. -/
theorem Holds.exists_within (h : index.Holds entries) (query : BitHash) (threshold : Nat) :
    ∃ hits, index.within query threshold = .some hits ∧
      hits.Perm (entries.filterMap (hit? query threshold)) := by
  have hsame : (entries.filter fun entry => entry.hash.bitLength = query.bitLength).filterMap
      (hit? query threshold) = entries.filterMap (hit? query threshold) := by
    rw [List.filterMap_filter]
    refine List.filterMap_congr fun entry _ => ?_
    split
    · rfl
    · rename_i hother
      have hne : entry.hash.bytes.length ≠ query.bytes.length := fun heq =>
        hother (decide_eq_true (congrArg (8 * ·) heq))
      simp only [hit?, BitHash.distance?_of_length_ne hne]
  rw [← hsame, ← h.entries]
  cases hold : get? query.bitLength index.trees with
  | none => exact ⟨[], by rw [Arenas.within, hold], by rw [Arenas.arena, hold]; exact .nil⟩
  | some arena =>
    obtain ⟨hits, hwithin, hperm⟩ := (h.tree _ _ hold).exists_within query threshold
    exact ⟨hits, by rw [Arenas.within, hold]; exact hwithin, by rwa [arena_of_get? hold]⟩

/-- After every sequence of insertions the arenas of the index are trees: a node stands behind its one
parent, and what lies below an edge has the distance of the edge from the entry above. The nodes, all of
them reached from the roots, are the entries of each length in the order of insertion, and they are
counted. The loop of an insertion ends in each tree for each entry, and that of a search for each hash,
having popped no place twice. So these are the trees of the metric index, and a search gives its hits. -/
theorem insertions_build_trees (entries : List Entry) :
    ∃ index metric, ofEntries entries = .some index ∧
      Index.ofEntries .metric entries = .metric metric ∧ index.Draws metric ∧
      index.size = entries.length ∧
      (∀ bits, (index.arena bits).entries =
        entries.filter fun entry => entry.hash.bitLength = bits) ∧
      (∀ bits arena, get? bits index.trees = some arena →
        arena.IsTree ∧ (∀ place, arena.Leads 0 place ↔ place < arena.nodes.length) ∧
        (∀ entry ∈ arena.entries, entry.hash.bitLength = bits) ∧
        (∀ entry, ∃ place < arena.nodes.length,
          StateTransition.eval (arena.descend? entry) 0 = .some place) ∧
        ∀ query threshold, ∃ done,
          StateTransition.eval (arena.turn? query threshold) .start = .some done ∧
          done.stack = [] ∧ done.popped.Nodup ∧
          ∀ place ∈ done.popped, place < arena.nodes.length) ∧
      ∀ query threshold, ∃ hits, index.within query threshold = .some hits ∧
        hits.Perm (metric.within query threshold) := by
  obtain ⟨index, hindex, hholds, hdraws⟩ := holds_empty.foldlM_insert draws_empty entries
  have hmetric := Index.ofEntries_metric entries
  refine ⟨index, entries.foldl Metric.insert .empty, hindex, hmetric, hdraws, hholds.size,
    hholds.entries, fun bits arena harena => ?_, fun query threshold => ?_⟩
  · have htree := hholds.tree bits arena harena
    refine ⟨htree, fun place => htree.leads_root_iff, fun entry hentry => ?_, fun entry => ?_,
      fun query threshold => ?_⟩
    · exact hholds.bitLength_eq (arena_of_get? harena ▸ hentry)
    · obtain ⟨place, node, hland⟩ := htree.exists_landsAt entry
      exact ⟨place, Arena.lt_length_of_node hland.stands, hland.eval_eq⟩
    · obtain ⟨done, heval, hstack, hdone⟩ := htree.exists_search query threshold
      have hnodup := hdone.nodup
      have hinside := hdone.inside
      rw [hstack, List.append_nil] at hnodup hinside
      exact ⟨done, heval, hstack, hnodup, hinside⟩
  · obtain ⟨hits, hwithin, hperm⟩ := hholds.exists_within query threshold
    have hlist := Index.within_ofEntries_perm .metric entries query threshold
    rw [hmetric] at hlist
    exact ⟨hits, hwithin, hperm.trans hlist.symm⟩

end Arenas

end Catalog.Similarity
