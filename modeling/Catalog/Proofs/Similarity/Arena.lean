import Catalog.Proofs.Order.Keyed
import Catalog.Proofs.Similarity.Distance
import Mathlib.Computability.StateTransition
import Mathlib.Data.Nat.Basic
import Mathlib.Logic.ExistsUnique
import Mathlib.Logic.Relation
import Mathlib.Order.RelClasses

/-! The metric index as it lies in memory: the nodes of a tree stand in one row, in the order of
insertion, and name their children by their places in it. Its loops follow places, with no measure of
their own, so they are given by their turns, and `StateTransition.eval` is their result if they end.
`IsTree` is what an insertion keeps; as places ascend on every way down, its loop ends. -/

namespace Catalog.Similarity

open Catalog.Order

/-- A node of an arena: its entry and, in ascending order of their distance from it, the places of its
children. -/
structure ArenaNode where
  entry : Entry
  children : List (Nat × Nat)
deriving DecidableEq, Repr

namespace ArenaNode

/-- The edge below which another entry belongs. The entries of a tree have one length of hash, so that the
distance is there. -/
def edgeTo (node : ArenaNode) (entry : Entry) : Nat :=
  (node.entry.hash.distance? entry.hash).getD 0

/-- The node with a child for one more entry, at a place. -/
def adopt (node : ArenaNode) (entry : Entry) (place : Nat) : ArenaNode :=
  { node with children := put (node.edgeTo entry) place node.children }

theorem distance?_eq_edgeTo {node : ArenaNode} {entry : Entry}
    (h : node.entry.hash.bitLength = entry.hash.bitLength) :
    node.entry.hash.distance? entry.hash = some (node.edgeTo entry) := by
  have hbytes : node.entry.hash.bytes.length = entry.hash.bytes.length := by
    simp only [BitHash.bitLength] at h
    omega
  rw [edgeTo, BitHash.distance?_of_length_eq hbytes, Option.getD_some]

end ArenaNode

/-- A tree for one length of hash, as a row of nodes. The first is the root. -/
structure Arena where
  nodes : List ArenaNode
deriving DecidableEq, Repr

namespace Arena

/-- The arena without nodes. -/
def empty : Arena := ⟨[]⟩

/-- The entries in the order of insertion. -/
def entries (arena : Arena) : List Entry := arena.nodes.map (·.entry)

/-- One turn of the loop of an insertion: from a place to the child of its node below the edge of the
entry. The loop ends where there is no such child; it would also stop at a place without a node. -/
def descend? (arena : Arena) (entry : Entry) (place : Nat) : Option Nat :=
  arena.nodes[place]?.bind fun node => get? (node.edgeTo entry) node.children

/-- The arena of one entry. -/
def single (entry : Entry) : Arena := ⟨[⟨entry, []⟩]⟩

/-- The arena with one more node, which becomes a child of the node at a place. -/
def attach (arena : Arena) (entry : Entry) (place : Nat) : Arena :=
  ⟨arena.nodes.modify place (·.adopt entry arena.nodes.length) ++ [⟨entry, []⟩]⟩

/-- The arena with one more entry, if the loop that looks for its place ends. -/
def insert (arena : Arena) (entry : Entry) : Part Arena :=
  if arena.nodes.isEmpty then .some (single entry)
  else (StateTransition.eval (arena.descend? entry) 0).map (arena.attach entry)

/-- A node names another one as its child below an edge. -/
def Edge (arena : Arena) (parent edge child : Nat) : Prop :=
  ∃ node, arena.nodes[parent]? = some node ∧ get? edge node.children = some child

/-- One place leads to another along edges, or is the same. -/
def Leads (arena : Arena) : Nat → Nat → Prop :=
  Relation.ReflTransGen fun parent child => ∃ edge, arena.Edge parent edge child

/-- The loop of an insertion comes from one place to another. -/
def Descends (arena : Arena) (entry : Entry) : Nat → Nat → Prop :=
  StateTransition.Reaches (arena.descend? entry)

/-- The loop of an insertion comes from the root to a node without a child below the edge of the
entry. -/
structure LandsAt (arena : Arena) (entry : Entry) (place : Nat) (node : ArenaNode) : Prop where
  path : arena.Descends entry 0 place
  stands : arena.nodes[place]? = some node
  free : arena.descend? entry place = none

/-- The nodes form a tree with the first one as its root: children stand behind their parents, each
node but the first has one parent, by one edge, and whatever lies below an edge has the distance of that
edge from the entry above it. -/
structure IsTree (arena : Arena) : Prop where
  root : 0 < arena.nodes.length
  forward : ∀ parent edge child, arena.Edge parent edge child →
    parent < child ∧ child < arena.nodes.length
  parent : ∀ place, 0 < place → place < arena.nodes.length →
    ∃! link : Nat × Nat, arena.Edge link.1 link.2 place
  graded : ∀ parent edge child place above below, arena.Edge parent edge child →
    arena.Leads child place → arena.entries[parent]? = some above →
    arena.entries[place]? = some below → above.hash.distance? below.hash = some edge
  ascending : ∀ node ∈ arena.nodes, Ascending node.children

variable {arena : Arena} {entry : Entry} {node : ArenaNode} {parent edge child place start : Nat}

theorem length_entries (arena : Arena) : arena.entries.length = arena.nodes.length :=
  List.length_map _

theorem getElem?_entries (arena : Arena) (place : Nat) :
    arena.entries[place]? = arena.nodes[place]?.map (·.entry) := List.getElem?_map

theorem getElem?_entries_of_node (h : arena.nodes[place]? = some node) :
    arena.entries[place]? = some node.entry := by
  rw [getElem?_entries, h, Option.map_some]

theorem exists_node_of_lt (h : place < arena.nodes.length) :
    ∃ node, arena.nodes[place]? = some node := ⟨_, List.getElem?_eq_getElem h⟩

theorem lt_length_of_node (h : arena.nodes[place]? = some node) : place < arena.nodes.length :=
  (List.getElem?_eq_some_iff.mp h).1

theorem Edge.lt_length (h : arena.Edge parent edge child) : parent < arena.nodes.length := by
  obtain ⟨node, hnode, -⟩ := h
  exact lt_length_of_node hnode

theorem edge_iff (h : arena.nodes[parent]? = some node) :
    arena.Edge parent edge child ↔ get? edge node.children = some child := by
  simp [Edge, h]

theorem Edge.leads (h : arena.Edge parent edge child) (hlead : arena.Leads child place) :
    arena.Leads parent place := hlead.head ⟨edge, h⟩

theorem descend?_of_node (h : arena.nodes[place]? = some node) (entry : Entry) :
    arena.descend? entry place = get? (node.edgeTo entry) node.children := by
  rw [descend?, h, Option.bind_some]

/-- A turn of the loop takes the edge of the entry. -/
theorem mem_descend?_iff (h : arena.nodes[parent]? = some node) :
    child ∈ arena.descend? entry parent ↔ arena.Edge parent (node.edgeTo entry) child := by
  rw [descend?_of_node h, edge_iff h, Option.mem_def]

theorem exists_of_mem_descend? (h : child ∈ arena.descend? entry parent) :
    ∃ node, arena.nodes[parent]? = some node ∧ arena.Edge parent (node.edgeTo entry) child := by
  obtain ⟨node, hnode, -⟩ := Option.bind_eq_some_iff.mp h
  exact ⟨node, hnode, (mem_descend?_iff hnode).mp h⟩

/-! ### Ways down a tree -/

namespace IsTree

theorem isEmpty_eq_false (h : arena.IsTree) : arena.nodes.isEmpty = false := by
  rw [List.isEmpty_eq_false_iff, ← List.length_pos_iff]
  exact h.root

theorem le_of_leads (h : arena.IsTree) (hlead : arena.Leads start place) : start ≤ place := by
  induction hlead with
  | refl => exact Nat.le_refl _
  | tail _ hedge ih =>
    obtain ⟨edge, hedge⟩ := hedge
    have hlt := (h.forward _ _ _ hedge).1
    omega

theorem lt_length_of_leads (h : arena.IsTree) (hlead : arena.Leads start place)
    (hstart : start < arena.nodes.length) : place < arena.nodes.length := by
  cases hlead with
  | refl => exact hstart
  | tail _ hedge =>
    obtain ⟨edge, hedge⟩ := hedge
    exact (h.forward _ _ _ hedge).2

/-- A node has one parent, by one edge. -/
theorem edge_eq {parent' edge' : Nat} (h : arena.IsTree) (hedge : arena.Edge parent edge child)
    (hedge' : arena.Edge parent' edge' child) : parent' = parent ∧ edge' = edge := by
  obtain ⟨hlt, hlength⟩ := h.forward _ _ _ hedge
  obtain ⟨link, -, hlink⟩ := h.parent child (by omega) hlength
  have hsame : (parent', edge') = (parent, edge) :=
    (hlink (parent', edge') hedge').trans (hlink (parent, edge) hedge).symm
  simpa using hsame

/-- The root leads to every node. -/
theorem leads_root (h : arena.IsTree) (hplace : place < arena.nodes.length) :
    arena.Leads 0 place := by
  induction place using Nat.strongRecOn with
  | _ place ih =>
    rcases Nat.eq_zero_or_pos place with rfl | hpos
    · exact .refl
    · obtain ⟨⟨parent, edge⟩, hedge, -⟩ := h.parent place hpos hplace
      have hlt : parent < place := (h.forward _ _ _ hedge).1
      exact (ih parent hlt (by omega)).tail ⟨edge, hedge⟩

theorem leads_root_iff (h : arena.IsTree) : arena.Leads 0 place ↔ place < arena.nodes.length :=
  ⟨fun hlead => h.lt_length_of_leads hlead h.root, h.leads_root⟩

/-- The loop of an insertion comes to a node without a child below the edge of the entry. -/
theorem exists_descends (h : arena.IsTree) (entry : Entry) (hstart : start < arena.nodes.length) :
    ∃ place node, arena.Descends entry start place ∧ arena.nodes[place]? = some node ∧
      arena.descend? entry place = none := by
  -- Places ascend, so that fewer and fewer are left.
  induction hleft : arena.nodes.length - start using Nat.strongRecOn generalizing start with
  | _ left ih =>
    obtain ⟨node, hnode⟩ := exists_node_of_lt hstart
    cases hturn : arena.descend? entry start with
    | none => exact ⟨start, node, .refl, hnode, hturn⟩
    | some child =>
      obtain ⟨hlt, hlength⟩ := h.forward _ _ _ ((mem_descend?_iff hnode).mp hturn)
      obtain ⟨place, last, hpath, hlast⟩ := ih _ (by omega) hlength rfl
      exact ⟨place, last, hpath.head hturn, hlast⟩

theorem exists_landsAt (h : arena.IsTree) (entry : Entry) :
    ∃ place node, arena.LandsAt entry place node := by
  obtain ⟨place, node, hpath, hnode, hfree⟩ := h.exists_descends entry h.root
  exact ⟨place, node, hpath, hnode, hfree⟩

/-- All edges above the place to which the loop leads are edges that it took. -/
theorem edge_of_descends (h : arena.IsTree) (hpath : arena.Descends entry 0 place)
    (hedge : arena.Edge parent edge child) (hlead : arena.Leads child place) :
    ∃ node, arena.nodes[parent]? = some node ∧ edge = node.edgeTo entry := by
  -- From the end of the way upwards: the last edge is that of the only parent.
  induction hpath with
  | refl =>
    have hlt := (h.forward _ _ _ hedge).1
    have hle := h.le_of_leads hlead
    omega
  | tail _ hturn ih =>
    obtain ⟨last, hlast, hown⟩ := exists_of_mem_descend? hturn
    rcases hlead.cases_tail with rfl | ⟨above, habove, edge', hedge'⟩
    · obtain ⟨rfl, rfl⟩ := h.edge_eq hown hedge
      exact ⟨last, hlast, rfl⟩
    · obtain ⟨rfl, -⟩ := h.edge_eq hown hedge'
      exact ih habove

/-- Below its other edges a node on the way of the loop does not lead to where the loop does. -/
theorem not_leads_of_edge_ne (h : arena.IsTree) (hpath : arena.Descends entry 0 place)
    (hnode : arena.nodes[parent]? = some node) (hedge : arena.Edge parent edge child)
    (hne : edge ≠ node.edgeTo entry) : ¬arena.Leads child place := by
  intro hlead
  obtain ⟨own, hown, rfl⟩ := h.edge_of_descends hpath hedge hlead
  obtain rfl : node = own := Option.mem_unique hnode hown
  exact hne rfl

end IsTree

/-- The loop goes no further than to a place without a turn. -/
theorem Descends.eq_of_free (h : arena.Descends entry start place)
    (hfree : arena.descend? entry start = none) : start = place := by
  rcases h.cases_head with rfl | ⟨child, hturn, -⟩
  · rfl
  · rw [hfree] at hturn
    cases hturn

theorem LandsAt.eval_eq (h : arena.LandsAt entry place node) :
    StateTransition.eval (arena.descend? entry) 0 = .some place :=
  Part.eq_some_iff.mpr (StateTransition.mem_eval.mpr ⟨h.path, h.free⟩)

/-- The loop goes on to the child below the edge of the entry. -/
theorem LandsAt.descends_child (hland : arena.LandsAt entry place node)
    (h : arena.Descends entry start place) (hturn : child ∈ arena.descend? entry start) :
    arena.Descends entry child place := by
  rcases h.cases_head with rfl | ⟨child', hturn', hrest⟩
  · rw [hland.free] at hturn
    cases hturn
  · obtain rfl := Option.mem_unique hturn' hturn
    exact hrest

/-! ### One more node -/

theorem length_attach (arena : Arena) (entry : Entry) (place : Nat) :
    (arena.attach entry place).nodes.length = arena.nodes.length + 1 := by
  simp [attach]

theorem getElem?_attach_of_lt (hparent : parent < arena.nodes.length) :
    (arena.attach entry place).nodes[parent]? =
      if place = parent then arena.nodes[parent]?.map (·.adopt entry arena.nodes.length)
      else arena.nodes[parent]? := by
  rw [attach, List.getElem?_append_left (by simpa using hparent), List.getElem?_modify]
  split <;> simp

theorem getElem?_attach_length (arena : Arena) (entry : Entry) (place : Nat) :
    (arena.attach entry place).nodes[arena.nodes.length]? = some ⟨entry, []⟩ := by
  simp [attach]

theorem entries_attach (arena : Arena) (entry : Entry) (place : Nat) :
    (arena.attach entry place).entries = arena.entries ++ [entry] := by
  refine List.ext_getElem? fun i => ?_
  rw [getElem?_entries]
  rcases Nat.lt_trichotomy i arena.nodes.length with hlt | rfl | hgt
  · rw [getElem?_attach_of_lt hlt, List.getElem?_append_left (by rwa [length_entries]),
      getElem?_entries]
    split
    · rw [Option.map_map]
      rfl
    · rfl
  · rw [getElem?_attach_length, Option.map_some, ← length_entries, List.getElem?_concat_length]
  · rw [List.getElem?_eq_none (by rw [length_attach]; omega),
      List.getElem?_eq_none (by simp only [List.length_append, length_entries]; exact hgt)]
    rfl

theorem getElem?_entries_attach_of_lt (h : parent < arena.entries.length) :
    (arena.attach entry place).entries[parent]? = arena.entries[parent]? := by
  rw [entries_attach, List.getElem?_append_left h]

/-- The new node is named by the one that it was attached to; all other edges stay. -/
theorem edge_attach_iff (h : arena.LandsAt entry place node) :
    (arena.attach entry place).Edge parent edge child ↔ arena.Edge parent edge child ∨
      parent = place ∧ edge = node.edgeTo entry ∧ child = arena.nodes.length := by
  have hplace := lt_length_of_node h.stands
  have hfree := h.free
  rw [descend?_of_node h.stands] at hfree
  rcases Nat.lt_trichotomy parent arena.nodes.length with hlt | rfl | hgt
  · by_cases hsame : place = parent
    · -- The node that takes the child had none below the edge.
      subst hsame
      have hadopt : (arena.attach entry place).nodes[place]? =
          some (node.adopt entry arena.nodes.length) := by
        rw [getElem?_attach_of_lt hlt, if_pos rfl, h.stands, Option.map_some]
      rw [edge_iff hadopt, edge_iff h.stands, ArenaNode.adopt]
      by_cases hedge : edge = node.edgeTo entry
      · subst hedge
        simp [get?_put_self, hfree, eq_comm]
      · simp [get?_put_of_ne hedge, hedge]
    · rw [Edge, getElem?_attach_of_lt hlt, if_neg hsame, ← Edge]
      simp [Ne.symm hsame]
  · rw [edge_iff (getElem?_attach_length arena entry place)]
    have hnone : ¬arena.Edge arena.nodes.length edge child := fun hedge =>
      Nat.lt_irrefl _ hedge.lt_length
    simp [hnone, Nat.ne_of_gt hplace]
  · have hnone : ¬arena.Edge parent edge child := fun hedge => Nat.lt_asymm hgt hedge.lt_length
    have hnone' : ¬(arena.attach entry place).Edge parent edge child := by
      intro hedge
      have hlt := hedge.lt_length
      rw [length_attach] at hlt
      omega
    have hne : parent ≠ place := by omega
    simp [hnone, hnone', hne]

theorem exists_edge_attach_iff (h : arena.LandsAt entry place node) :
    (∃ child, (arena.attach entry place).Edge parent edge child) ↔
      (∃ child, arena.Edge parent edge child) ∨ parent = place ∧ edge = node.edgeTo entry := by
  simp [edge_attach_iff h, exists_or]

/-- Old nodes are reached as before. -/
theorem leads_of_leads_attach {target : Nat} (hland : arena.LandsAt entry place node)
    (h : arena.IsTree) (hlead : (arena.attach entry place).Leads start target)
    (htarget : target < arena.nodes.length) : arena.Leads start target := by
  induction hlead with
  | refl => exact .refl
  | tail _ hedge ih =>
    obtain ⟨edge, hedge⟩ := hedge
    rcases (edge_attach_iff hland).mp hedge with hold | ⟨-, -, hnew⟩
    · have hlt := (h.forward _ _ _ hold).1
      exact (ih (by omega)).tail ⟨edge, hold⟩
    · omega

/-- The new node is reached from where the loop of its insertion came along. -/
theorem leads_place_of_leads_attach (hland : arena.LandsAt entry place node) (h : arena.IsTree)
    (hlead : (arena.attach entry place).Leads start arena.nodes.length) :
    start = arena.nodes.length ∨ arena.Leads start place := by
  rcases hlead.cases_tail with hsame | ⟨last, hlast, edge, hedge⟩
  · exact .inl hsame.symm
  · rcases (edge_attach_iff hland).mp hedge with hold | ⟨rfl, -, -⟩
    · exact absurd (h.forward _ _ _ hold).2 (Nat.lt_irrefl _)
    · exact .inr (leads_of_leads_attach hland h hlast (lt_length_of_node hland.stands))

theorem isTree_single (entry : Entry) : (single entry).IsTree := by
  have hnone : ∀ parent edge child, ¬(single entry).Edge parent edge child := by
    rintro parent edge child ⟨node, hnode, hchild⟩
    cases parent with
    | zero =>
      obtain rfl : ⟨entry, []⟩ = node := by simpa [single] using hnode
      cases hchild
    | succ parent => simp [single] at hnode
  refine ⟨Nat.zero_lt_one, fun parent edge child hedge => absurd hedge (hnone parent edge child),
    fun place hpos hplace => ?_,
    fun parent edge child _ _ _ hedge => absurd hedge (hnone parent edge child),
    fun node hnode => ?_⟩
  · exact absurd hplace (by simpa [single] using Nat.ne_of_gt hpos)
  · obtain rfl : node = ⟨entry, []⟩ := by simpa [single] using hnode
    exact .nil

theorem insert_empty (entry : Entry) : empty.insert entry = .some (single entry) := rfl

/-- All edges above the new node are edges that the loop took, or the new one. -/
theorem edge_of_leads_attach (hland : arena.LandsAt entry place node) (h : arena.IsTree)
    (hedge : (arena.attach entry place).Edge parent edge child)
    (hlead : (arena.attach entry place).Leads child arena.nodes.length) :
    ∃ other, arena.nodes[parent]? = some other ∧ edge = other.edgeTo entry := by
  rcases (edge_attach_iff hland).mp hedge with hold | ⟨rfl, rfl, -⟩
  · have hlt := (h.forward _ _ _ hold).2
    have habove := (leads_place_of_leads_attach hland h hlead).resolve_left (by omega)
    exact h.edge_of_descends hland.path hold habove
  · exact ⟨node, hland.stands, rfl⟩

namespace IsTree

theorem graded_attach (h : arena.IsTree) (hland : arena.LandsAt entry place node)
    (hlength : ∀ other ∈ arena.entries, other.hash.bitLength = entry.hash.bitLength)
    {target : Nat} {above below : Entry} (hedge : (arena.attach entry place).Edge parent edge child)
    (hlead : (arena.attach entry place).Leads child target)
    (habove : (arena.attach entry place).entries[parent]? = some above)
    (hbelow : (arena.attach entry place).entries[target]? = some below) :
    above.hash.distance? below.hash = some edge := by
  have hparent : parent < arena.nodes.length := by
    rcases (edge_attach_iff hland).mp hedge with hold | ⟨rfl, -, -⟩
    · exact hold.lt_length
    · exact lt_length_of_node hland.stands
  rw [getElem?_entries_attach_of_lt (by rwa [length_entries])] at habove
  have htarget := (List.getElem?_eq_some_iff.mp hbelow).1
  rw [length_entries, length_attach] at htarget
  rcases Nat.lt_or_eq_of_le (Nat.le_of_lt_succ htarget) with hlt | rfl
  · rw [getElem?_entries_attach_of_lt (by rwa [length_entries])] at hbelow
    have hold := leads_of_leads_attach hland h hlead hlt
    have hchild := h.le_of_leads hold
    rcases (edge_attach_iff hland).mp hedge with hown | ⟨-, -, hnew⟩
    · exact h.graded _ _ _ _ _ _ hown hold habove hbelow
    · omega
  · rw [entries_attach, ← length_entries, List.getElem?_concat_length, Option.some.injEq] at hbelow
    obtain ⟨other, hother, rfl⟩ := edge_of_leads_attach hland h hedge hlead
    have hentry := getElem?_entries_of_node hother
    rw [hentry, Option.some.injEq] at habove
    rw [← habove, ← hbelow]
    exact ArenaNode.distance?_eq_edgeTo (hlength _ (List.mem_of_getElem? hentry))

/-- An insertion keeps the tree. -/
theorem attach (h : arena.IsTree) (hland : arena.LandsAt entry place node)
    (hlength : ∀ other ∈ arena.entries, other.hash.bitLength = entry.hash.bitLength) :
    (arena.attach entry place).IsTree where
  root := by
    rw [length_attach]
    exact Nat.succ_pos _
  forward parent edge child hedge := by
    rw [length_attach]
    rcases (edge_attach_iff hland).mp hedge with hold | ⟨rfl, -, rfl⟩
    · have hlt := h.forward _ _ _ hold
      omega
    · have hlt := lt_length_of_node hland.stands
      omega
  parent target hpos htarget := by
    rw [length_attach] at htarget
    rcases Nat.lt_or_eq_of_le (Nat.le_of_lt_succ htarget) with hlt | rfl
    · obtain ⟨link, hlink, hunique⟩ := h.parent target hpos hlt
      refine ⟨link, (edge_attach_iff hland).mpr (.inl hlink), fun other hother => ?_⟩
      rcases (edge_attach_iff hland).mp hother with hold | ⟨-, -, hnew⟩
      · exact hunique other hold
      · omega
    · refine ⟨(place, node.edgeTo entry), (edge_attach_iff hland).mpr (.inr ⟨rfl, rfl, rfl⟩),
        fun other hother => ?_⟩
      rcases (edge_attach_iff hland).mp hother with hold | ⟨hparent, hedge, -⟩
      · exact absurd (h.forward _ _ _ hold).2 (Nat.lt_irrefl _)
      · exact Prod.ext hparent hedge
  graded _ _ _ _ _ _ hedge hlead habove hbelow :=
    h.graded_attach hland hlength hedge hlead habove hbelow
  ascending other hother := by
    obtain ⟨i, hi⟩ := List.getElem?_of_mem hother
    have hlength := lt_length_of_node hi
    rw [length_attach] at hlength
    rcases Nat.lt_or_eq_of_le (Nat.le_of_lt_succ hlength) with hlt | rfl
    · rw [getElem?_attach_of_lt hlt] at hi
      split at hi
      · obtain ⟨old, hold, rfl⟩ := Option.map_eq_some_iff.mp hi
        exact (h.ascending old (List.mem_of_getElem? hold)).put _ _
      · exact h.ascending other (List.mem_of_getElem? hi)
    · rw [getElem?_attach_length, Option.some.injEq] at hi
      subst hi
      exact .nil

theorem exists_insert (h : arena.IsTree) (entry : Entry) :
    ∃ place node, arena.LandsAt entry place node ∧
      arena.insert entry = .some (arena.attach entry place) := by
  obtain ⟨place, node, hland⟩ := h.exists_landsAt entry
  refine ⟨place, node, hland, ?_⟩
  rw [insert, h.isEmpty_eq_false, hland.eval_eq, Part.map_some]
  rfl

end IsTree

end Arena

end Catalog.Similarity
