import Catalog.Proofs.Similarity.Arena
import Catalog.Proofs.Similarity.MetricTree
import Mathlib.Data.List.Nodup
import Mathlib.Data.List.Perm.Subperm

/-! The search over an arena, whose loop works off a stack of places. A place is pushed by its one
parent only, so none is popped twice and the loop ends. What it passes over lies below edges that the
triangle inequality excludes, so that it finds all hits. -/

namespace Catalog.Similarity

open Catalog.Order

/-- The places a search goes on to: below the edges that differ from the node's own distance by at most
the threshold. The range may end beyond the numbers of 32 bits, where no edge lies. -/
def ArenaNode.nearby (node : ArenaNode) (query : BitHash) (threshold : Nat) : List Nat :=
  match node.entry.hash.distance? query with
  | some d =>
    (node.children.filter fun link => d - threshold ≤ link.1 ∧ link.1 ≤ d + threshold).map (·.2)
  | none => []

namespace Arena

/-- A search between two turns of its loop: the places it popped so far, the last one first, the stack
with its top first, and the hits. -/
structure Search where
  popped : List Nat
  stack : List Nat
  hits : List Hit
deriving DecidableEq, Repr

namespace Search

/-- The search starts at the root. -/
def start : Search := ⟨[], [0], []⟩

/-- The search after a turn at a node, whose place stood above the rest of the stack. -/
def turn (search : Search) (query : BitHash) (threshold : Nat) (node : ArenaNode) (place : Nat)
    (rest : List Nat) : Search where
  popped := place :: search.popped
  stack := (node.nearby query threshold).reverse ++ rest
  hits := search.hits ++ (hit? query threshold node.entry).toList

end Search

/-- One turn of the loop of a search. The loop ends with an empty stack; it would also stop at a place
without a node. -/
def turn? (arena : Arena) (query : BitHash) (threshold : Nat) (search : Search) : Option Search :=
  match search.stack with
  | [] => none
  | place :: rest =>
    arena.nodes[place]?.map fun node => search.turn query threshold node place rest

/-- All entries of the tree within the threshold of the hash, if the loop of the search ends. -/
def within (arena : Arena) (query : BitHash) (threshold : Nat) : Part (List Hit) :=
  if arena.nodes.isEmpty then .some []
  else (StateTransition.eval (arena.turn? query threshold) .start).map (·.hits)

/-- The entry at a place, if it is a hit. -/
def hitAt? (arena : Arena) (query : BitHash) (threshold place : Nat) : Option Hit :=
  arena.entries[place]?.bind (hit? query threshold)

/-- A place leads to no hit. -/
def HitFree (arena : Arena) (query : BitHash) (threshold start : Nat) : Prop :=
  ∀ place, arena.Leads start place → arena.hitAt? query threshold place = none

/-- What a search keeps: no place occurs twice on the stack and among those popped; each but the root has
its parent among those popped; a child of a popped place is known too, or leads to no hit; and the hits
are those at the popped places. -/
structure Search.Sound (search : Search) (arena : Arena) (query : BitHash) (threshold : Nat) :
    Prop where
  nodup : (search.popped ++ search.stack).Nodup
  inside : ∀ place ∈ search.popped ++ search.stack, place < arena.nodes.length
  parent : ∀ place ∈ search.popped ++ search.stack, 0 < place →
    ∃ parent ∈ search.popped, ∃ edge, arena.Edge parent edge place
  root : 0 ∈ search.popped ++ search.stack
  followed : ∀ parent ∈ search.popped, ∀ edge child, arena.Edge parent edge child →
    child ∈ search.popped ++ search.stack ∨ arena.HitFree query threshold child
  hits : search.hits = search.popped.reverse.filterMap (arena.hitAt? query threshold)

variable {arena : Arena} {node : ArenaNode} {search : Search} {query : BitHash}
  {threshold parent edge child place : Nat} {rest : List Nat}

theorem turn?_of_nil (arena : Arena) (query : BitHash) (threshold : Nat)
    (hstack : search.stack = []) : arena.turn? query threshold search = none := by
  rw [turn?, hstack]

theorem turn?_of_cons (query : BitHash) (threshold : Nat) (hstack : search.stack = place :: rest)
    (hnode : arena.nodes[place]? = some node) :
    arena.turn? query threshold search = some (search.turn query threshold node place rest) := by
  simp [turn?, hstack, hnode]

theorem hitAt?_of_node (h : arena.nodes[place]? = some node) :
    arena.hitAt? query threshold place = hit? query threshold node.entry := by
  rw [hitAt?, getElem?_entries_of_node h, Option.bind_some]

theorem filterMap_hitAt? (arena : Arena) (query : BitHash) (threshold : Nat) :
    (List.range arena.nodes.length).filterMap (arena.hitAt? query threshold) =
      arena.entries.filterMap (hit? query threshold) := by
  have hrange : ∀ entries : List Entry, (List.range entries.length).filterMap
      (fun place => entries[place]?.bind (hit? query threshold)) =
        entries.filterMap (hit? query threshold) := by
    intro entries
    induction entries with
    | nil => rfl
    | cons entry entries ih =>
      rw [List.length_cons, List.range_succ_eq_map, List.filterMap_cons, List.filterMap_map,
        List.filterMap_cons, ← ih]
      rfl
  rw [← hrange, length_entries]
  rfl

/-! ### Children that a search goes on to -/

theorem exists_link_of_mem_nearby (h : child ∈ node.nearby query threshold) :
    ∃ edge, (edge, child) ∈ node.children := by
  rw [ArenaNode.nearby] at h
  split at h
  · obtain ⟨link, hlink, rfl⟩ := List.mem_map.mp h
    exact ⟨link.1, (List.mem_filter.mp hlink).1⟩
  · cases h

namespace IsTree

theorem edge_iff_mem (h : arena.IsTree) (hnode : arena.nodes[parent]? = some node) :
    arena.Edge parent edge child ↔ (edge, child) ∈ node.children := by
  rw [edge_iff hnode, (h.ascending node (List.mem_of_getElem? hnode)).get?_eq_some_iff]

theorem edge_of_mem_nearby (h : arena.IsTree) (hnode : arena.nodes[parent]? = some node)
    (hchild : child ∈ node.nearby query threshold) : ∃ edge, arena.Edge parent edge child := by
  obtain ⟨edge, hlink⟩ := exists_link_of_mem_nearby hchild
  exact ⟨edge, (h.edge_iff_mem hnode).mpr hlink⟩

theorem nodup_nearby (h : arena.IsTree) (hnode : arena.nodes[parent]? = some node)
    (query : BitHash) (threshold : Nat) : (node.nearby query threshold).Nodup := by
  have hlinks : node.children.Nodup :=
    (h.ascending node (List.mem_of_getElem? hnode)).nodup_entries
  rw [ArenaNode.nearby]
  split
  · refine List.Nodup.map_on (fun link hlink link' hlink' hsame => ?_) (hlinks.filter _)
    have hedge := (h.edge_iff_mem hnode).mpr (List.mem_filter.mp hlink).1
    have hedge' := (h.edge_iff_mem hnode).mpr (List.mem_filter.mp hlink').1
    rw [← hsame] at hedge'
    exact Prod.ext (h.edge_eq hedge' hedge).2 hsame
  · exact .nil

/-- A child that a search passes over leads to no hit. -/
theorem hitFree_of_not_mem_nearby (h : arena.IsTree) (hnode : arena.nodes[parent]? = some node)
    (hedge : arena.Edge parent edge child) (hout : child ∉ node.nearby query threshold) :
    arena.HitFree query threshold child := by
  intro place hlead
  cases hbelow : arena.entries[place]? with
  | none => rw [hitAt?, hbelow, Option.bind_none]
  | some below =>
    rw [hitAt?, hbelow, Option.bind_some]
    have hdistance := h.graded _ _ _ _ _ _ hedge hlead (getElem?_entries_of_node hnode) hbelow
    have hlength : node.entry.hash.bytes.length = below.hash.bytes.length := by
      by_contra hne
      rw [BitHash.distance?_of_length_ne hne] at hdistance
      cases hdistance
    rw [BitHash.distance?_of_length_eq hlength, Option.some.injEq] at hdistance
    by_cases hquery : node.entry.hash.bytes.length = query.bytes.length
    · refine MetricTree.hit?_eq_none_of_edge hquery (hlength.symm.trans hquery) hdistance ?_
      intro hin
      apply hout
      rw [ArenaNode.nearby, BitHash.distance?_of_length_eq hquery]
      exact List.mem_map.mpr ⟨(edge, child), List.mem_filter.mpr
        ⟨(h.edge_iff_mem hnode).mp hedge, decide_eq_true hin⟩, rfl⟩
    · have hne : below.hash.bytes.length ≠ query.bytes.length := fun heq =>
        hquery (hlength.trans heq)
      simp only [hit?, BitHash.distance?_of_length_ne hne]

end IsTree

/-! ### Turns of the loop -/

namespace Search

theorem sound_start (h : arena.IsTree) (query : BitHash) (threshold : Nat) :
    start.Sound arena query threshold where
  nodup := List.nodup_singleton 0
  inside place hplace := by
    obtain rfl := List.mem_singleton.mp hplace
    exact h.root
  parent place hplace hpos := by
    obtain rfl := List.mem_singleton.mp hplace
    exact absurd hpos (Nat.lt_irrefl 0)
  root := List.mem_singleton.mpr rfl
  followed parent hparent := by cases hparent
  hits := rfl

theorem turn_perm (search : Search) (query : BitHash) (threshold : Nat) (node : ArenaNode)
    (place : Nat) (rest : List Nat) :
    ((search.turn query threshold node place rest).popped ++
        (search.turn query threshold node place rest).stack).Perm
      (node.nearby query threshold ++ (search.popped ++ place :: rest)) :=
  (List.perm_append_comm_assoc _ _ _).trans
    ((List.reverse_perm _).append List.perm_middle.symm)

/-- A turn pushes no place that was there before: the parent of such a place would have been popped
twice. -/
theorem Sound.disjoint_nearby (hsearch : search.Sound arena query threshold) (h : arena.IsTree)
    (hstack : search.stack = place :: rest) (hnode : arena.nodes[place]? = some node)
    (hchild : child ∈ node.nearby query threshold) : child ∉ search.popped ++ search.stack := by
  intro hold
  obtain ⟨edge, hedge⟩ := h.edge_of_mem_nearby hnode hchild
  have hlt := (h.forward _ _ _ hedge).1
  obtain ⟨parent, hparent, edge', hedge'⟩ := hsearch.parent child hold (by omega)
  obtain ⟨rfl, -⟩ := h.edge_eq hedge hedge'
  have hnodup := hsearch.nodup
  rw [hstack] at hnodup
  exact List.disjoint_of_nodup_append hnodup hparent List.mem_cons_self

/-- One turn of the loop keeps what a search keeps. -/
theorem Sound.turn (hsearch : search.Sound arena query threshold) (h : arena.IsTree)
    (hstack : search.stack = place :: rest) (hnode : arena.nodes[place]? = some node) :
    (search.turn query threshold node place rest).Sound arena query threshold := by
  have hperm := turn_perm search query threshold node place rest
  rw [← hstack] at hperm
  have hplace : place ∈ search.popped ++ search.stack := by
    rw [hstack]
    exact List.mem_append_right _ List.mem_cons_self
  refine ⟨?_, fun q hq => ?_, fun q hq hpos => ?_, ?_, fun parent hparent edge child hedge => ?_, ?_⟩
  · rw [hperm.nodup_iff, List.nodup_append']
    exact ⟨h.nodup_nearby hnode query threshold, hsearch.nodup,
      fun child hchild => hsearch.disjoint_nearby h hstack hnode hchild⟩
  · rcases List.mem_append.mp (hperm.mem_iff.mp hq) with hnew | hold
    · obtain ⟨edge, hedge⟩ := h.edge_of_mem_nearby hnode hnew
      exact (h.forward _ _ _ hedge).2
    · exact hsearch.inside q hold
  · rcases List.mem_append.mp (hperm.mem_iff.mp hq) with hnew | hold
    · exact ⟨place, List.mem_cons_self, h.edge_of_mem_nearby hnode hnew⟩
    · obtain ⟨parent, hparent, hedge⟩ := hsearch.parent q hold hpos
      exact ⟨parent, List.mem_cons_of_mem place hparent, hedge⟩
  · exact hperm.mem_iff.mpr (List.mem_append_right _ hsearch.root)
  · rw [hperm.mem_iff, List.mem_append]
    rcases List.mem_cons.mp hparent with rfl | hold
    · by_cases hchild : child ∈ node.nearby query threshold
      · exact .inl (.inl hchild)
      · exact .inr (h.hitFree_of_not_mem_nearby hnode hedge hchild)
    · exact (hsearch.followed parent hold edge child hedge).imp_left .inr
  · rw [Search.turn, List.reverse_cons, List.filterMap_append, ← hsearch.hits, ← hitAt?_of_node hnode]
    cases hhit : arena.hitAt? query threshold place <;> simp [hhit]

theorem Sound.length_le (hsearch : search.Sound arena query threshold) :
    (search.popped ++ search.stack).length ≤ arena.nodes.length := by
  have hsub : (search.popped ++ search.stack) ⊆ List.range arena.nodes.length := fun place hplace =>
    List.mem_range.mpr (hsearch.inside place hplace)
  have hle := (List.subperm_of_subset hsearch.nodup hsub).length_le
  rwa [List.length_range] at hle

/-- The loop comes to an empty stack. -/
theorem Sound.exists_reaches (hsearch : search.Sound arena query threshold) (h : arena.IsTree) :
    ∃ done, StateTransition.Reaches (arena.turn? query threshold) search done ∧ done.stack = [] ∧
      done.Sound arena query threshold := by
  -- Each turn pops one more of the places.
  induction hleft : arena.nodes.length - search.popped.length using Nat.strongRecOn
    generalizing search with
  | _ left ih =>
    cases hstack : search.stack with
    | nil => exact ⟨search, .refl, hstack, hsearch⟩
    | cons place rest =>
      have hle := hsearch.length_le
      rw [hstack, List.length_append, List.length_cons] at hle
      obtain ⟨node, hnode⟩ := exists_node_of_lt
        (hsearch.inside place (hstack ▸ List.mem_append_right _ List.mem_cons_self))
      have hpopped : (search.turn query threshold node place rest).popped.length =
          search.popped.length + 1 := rfl
      obtain ⟨done, hdone, hresult⟩ := ih _ (by omega) (hsearch.turn h hstack hnode) rfl
      exact ⟨done, hdone.head (turn?_of_cons query threshold hstack hnode), hresult⟩

/-- In the end each place was popped or leads to no hit. -/
theorem Sound.popped_or_hitFree (hsearch : search.Sound arena query threshold) (h : arena.IsTree)
    (hdone : search.stack = []) (hplace : place < arena.nodes.length) :
    place ∈ search.popped ∨ arena.HitFree query threshold place := by
  induction place using Nat.strongRecOn with
  | _ place ih =>
    rcases Nat.eq_zero_or_pos place with rfl | hpos
    · have hroot := hsearch.root
      rw [hdone, List.append_nil] at hroot
      exact .inl hroot
    · obtain ⟨⟨parent, edge⟩, hedge, -⟩ := h.parent place hpos hplace
      have hlt : parent < place := (h.forward _ _ _ hedge).1
      rcases ih parent hlt (by omega) with hpopped | hfree
      · have hfollowed := hsearch.followed parent hpopped edge place hedge
        rwa [hdone, List.append_nil] at hfollowed
      · exact .inr fun below hbelow => hfree below (hedge.leads hbelow)

/-- In the end the hits are those among all entries. -/
theorem Sound.hits_perm (hsearch : search.Sound arena query threshold) (h : arena.IsTree)
    (hdone : search.stack = []) :
    search.hits.Perm (arena.entries.filterMap (hit? query threshold)) := by
  have hnodup := hsearch.nodup
  have hinside := hsearch.inside
  rw [hdone, List.append_nil] at hnodup hinside
  have hpopped : search.popped.reverse.Perm
      ((List.range arena.nodes.length).filter fun place => place ∈ search.popped) := by
    refine (List.reverse_perm _).trans
      ((List.perm_ext_iff_of_nodup hnodup (List.nodup_range.filter _)).mpr fun place => ?_)
    simp only [List.mem_filter, List.mem_range, decide_eq_true_eq]
    exact ⟨fun hmem => ⟨hinside place hmem, hmem⟩, fun hmem => hmem.2⟩
  rw [hsearch.hits, ← filterMap_hitAt?]
  refine (hpopped.filterMap _).trans (.of_eq ?_)
  rw [List.filterMap_filter]
  refine List.filterMap_congr fun place hplace => ?_
  split
  · rfl
  · rename_i hout
    have hfree := (hsearch.popped_or_hitFree h hdone (List.mem_range.mp hplace)).resolve_left
      (by simpa using hout)
    exact (hfree place .refl).symm

end Search

namespace IsTree

/-- The loop of a search ends for every hash. -/
theorem exists_search (h : arena.IsTree) (query : BitHash) (threshold : Nat) :
    ∃ done, StateTransition.eval (arena.turn? query threshold) .start = .some done ∧
      done.stack = [] ∧ done.Sound arena query threshold := by
  obtain ⟨done, hreaches, hstack, hdone⟩ := (Search.sound_start h query threshold).exists_reaches h
  have hend := turn?_of_nil arena query threshold hstack
  exact ⟨done, Part.eq_some_iff.mpr (StateTransition.mem_eval.mpr ⟨hreaches, hend⟩), hstack, hdone⟩

theorem exists_within (h : arena.IsTree) (query : BitHash) (threshold : Nat) :
    ∃ hits, arena.within query threshold = .some hits ∧
      hits.Perm (arena.entries.filterMap (hit? query threshold)) := by
  obtain ⟨done, heval, hstack, hdone⟩ := h.exists_search query threshold
  refine ⟨done.hits, ?_, hdone.hits_perm h hstack⟩
  rw [within, h.isEmpty_eq_false, heval, Part.map_some]
  rfl

end IsTree

end Arena

end Catalog.Similarity
