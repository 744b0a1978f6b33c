import AndOrFlow.Proofs.Outline.Text
import AndOrFlow.Proofs.Walk
import Mathlib.Algebra.BigOperators.Group.Finset.Basic
import Mathlib.Algebra.GroupWithZero.Nat

/-!
# What an outline shows

Drawing works on a stack of spots, places of the outline with the node to be shown there: the top
spot becomes the next line, and under the first occurrence of a node the spots of its sources take
its place. Every step draws one line, whatever the graph, so facts about an outline are proved one
line at a time. As only first occurrences add spots, and every node has one at most, drawing ends on
every graph, and the number of lines is one more than that of the references that are followed.
-/
namespace AndOrFlow
open Relation

/-- A place in an outline and the node that is shown there. -/
structure Spot where
  trail : List Bool
  id : NodeId

/-- The spots of the sources of a node, one level below the node. -/
def spotsBelow (trail : List Bool) : List NodeId → List Spot
  | [] => []
  | id :: rest => ⟨trail ++ [rest.isEmpty], id⟩ :: spotsBelow trail rest

/-- How a node is shown without its sources. -/
inductive Leaf (nodes : Array Node) (seen : Roster NodeId) (id : NodeId) : Occurrence → Prop
  | missing (hnone : nodes[id]? = none) : Leaf nodes seen id (.missing id)
  | again (hlt : id < nodes.size) (hseen : id ∈ seen) : Leaf nodes seen id (.again id)

/-- The lines that come of the spots on a stack, when some nodes have been shown already, and the
nodes that have been shown in the end. -/
inductive Draws (nodes : Array Node) :
    List Spot → Roster NodeId → List OutlineLine → Roster NodeId → Prop
  | done (seen : Roster NodeId) : Draws nodes [] seen [] seen
  | leaf {trail : List Bool} {id : NodeId} {o : Occurrence} {rest : List Spot}
      {seen after : Roster NodeId} {lines : List OutlineLine} (hleaf : Leaf nodes seen id o)
      (hrest : Draws nodes rest seen lines after) :
      Draws nodes (⟨trail, id⟩ :: rest) seen (⟨trail, o⟩ :: lines) after
  | first {trail : List Bool} {id : NodeId} {n : Node} {rest : List Spot}
      {seen after : Roster NodeId} {lines : List OutlineLine} (hn : nodes[id]? = some n)
      (hnew : id ∉ seen)
      (hrest : Draws nodes (spotsBelow trail n.sources ++ rest) (seen.add id) lines after) :
      Draws nodes (⟨trail, id⟩ :: rest) seen (⟨trail, .first id n⟩ :: lines) after

variable {nodes : Array Node} {root id source depth : Nat} {n : Node} {trail : List Bool}
  {o a : Occurrence} {spots pending : List Spot} {seen after done : Roster NodeId}
  {lines drawn : List OutlineLine}

theorem length_spotsBelow (trail : List Bool) (ids : List NodeId) :
    (spotsBelow trail ids).length = ids.length := by
  induction ids with
  | nil => rfl
  | cons id rest ih => rw [spotsBelow, List.length_cons, ih, List.length_cons]

theorem map_id_spotsBelow (trail : List Bool) (ids : List NodeId) :
    (spotsBelow trail ids).map Spot.id = ids := by
  induction ids with
  | nil => rfl
  | cons id rest ih => rw [spotsBelow, List.map_cons, ih]

theorem exists_mem_spotsBelow {ids : List NodeId} (h : id ∈ ids) :
    ∃ spot ∈ spotsBelow trail ids, spot.id = id := by
  rw [← map_id_spotsBelow trail ids] at h
  exact List.mem_map.mp h

theorem id_mem_of_mem_spotsBelow {ids : List NodeId} {spot : Spot}
    (h : spot ∈ spotsBelow trail ids) : spot.id ∈ ids := by
  rw [← map_id_spotsBelow trail ids]
  exact List.mem_map_of_mem h

theorem length_trail_of_mem_spotsBelow {ids : List NodeId} {spot : Spot}
    (h : spot ∈ spotsBelow trail ids) : spot.trail.length = trail.length + 1 := by
  induction ids with
  | nil => cases h
  | cons id rest ih =>
    rcases List.mem_cons.mp h with rfl | h
    · exact List.length_append
    · exact ih h

theorem Roster.not_mem_empty (id : NodeId) : id ∉ (.empty : Roster NodeId) := by
  simp [← Roster.mem_toList]

def OutlineLine.nodeId (l : OutlineLine) : NodeId := l.occurrence.nodeId

def Shown (lines : List OutlineLine) (id : NodeId) : Prop := ∃ l ∈ lines, l.nodeId = id

theorem shown_cons {l : OutlineLine} : Shown (l :: lines) id ↔ l.nodeId = id ∨ Shown lines id := by
  simp [Shown]

/-- The node is shown in full where it occurs first, and referred back to everywhere else. -/
def ShownOnce (lines : List OutlineLine) (id : NodeId) (n : Node) : Prop :=
  ∃ before trail later, lines = before ++ ⟨trail, .first id n⟩ :: later ∧
    (∀ l ∈ before, l.nodeId ≠ id) ∧ ∀ l ∈ later, l.nodeId = id → l.occurrence = .again id

theorem ShownOnce.cons {l : OutlineLine} (h : ShownOnce lines id n) (hl : l.nodeId ≠ id) :
    ShownOnce (l :: lines) id n := by
  obtain ⟨before, trail, later, rfl, hbefore, hlater⟩ := h
  exact ⟨l :: before, trail, later, rfl, List.forall_mem_cons.mpr ⟨hl, hbefore⟩, hlater⟩

namespace Leaf

theorem nodeId_eq (h : Leaf nodes seen id o) : o.nodeId = id := by
  cases h with
  | missing | again => rfl

theorem unique (h : Leaf nodes seen id o) (h' : Leaf nodes seen id a) : o = a := by
  cases h with
  | missing hnone =>
    cases h' with
    | missing => rfl
    | again hlt => simp [hlt] at hnone
  | again hlt =>
    cases h' with
    | missing hnone => simp [hlt] at hnone
    | again => rfl

theorem mem_of_getElem? (h : Leaf nodes seen id o) (hn : nodes[id]? = some n) :
    id ∈ seen ∧ o = .again id := by
  cases h with
  | missing hnone =>
    rw [hnone] at hn
    cases hn
  | again _ hseen => exact ⟨hseen, rfl⟩

theorem eq_missing (h : Leaf nodes seen id o) (hnone : nodes[id]? = none) : o = .missing id := by
  cases h with
  | missing => rfl
  | again hlt => simp [hlt] at hnone

end Leaf

/-- A spot is no deeper than those above it on the stack. -/
def Descending (pending : List Spot) : Prop :=
  pending.Pairwise fun above below => below.trail.length ≤ above.trail.length

theorem Descending.expand {spot : Spot} (h : Descending (spot :: pending)) (ids : List NodeId) :
    Descending (spotsBelow spot.trail ids ++ pending) := by
  obtain ⟨hspot, hpending⟩ := List.pairwise_cons.mp h
  refine List.pairwise_append.mpr ⟨?_, hpending, fun above habove below hbelow => ?_⟩
  · refine List.pairwise_of_forall_mem_list fun above habove below hbelow => ?_
    rw [length_trail_of_mem_spotsBelow habove, length_trail_of_mem_spotsBelow hbelow]
  · rw [length_trail_of_mem_spotsBelow habove]
    exact Nat.le_succ_of_le (hspot below hbelow)

/-- No line is deeper than the one before it, unless that shows a node in full: then it may be one
level deeper. -/
def OutlineLine.Steps (l next : OutlineLine) : Prop :=
  next.trail.length ≤ l.trail.length ∨
    next.trail.length = l.trail.length + 1 ∧ ∃ id n, l.occurrence = .first id n

namespace Draws

/-- The spots and the nodes shown before leave no choice. -/
theorem unique (h : Draws nodes pending seen lines after)
    (h' : Draws nodes pending seen drawn done) : lines = drawn ∧ after = done := by
  induction h generalizing drawn done with
  | done seen =>
    cases h'
    exact ⟨rfl, rfl⟩
  | leaf hleaf _ ih =>
    cases h' with
    | leaf hleaf' hrest =>
      obtain ⟨rfl, rfl⟩ := ih hrest
      rw [hleaf.unique hleaf']
      exact ⟨rfl, rfl⟩
    | first hn hnew => exact absurd (hleaf.mem_of_getElem? hn).1 hnew
  | first hn hnew _ ih =>
    cases h' with
    | leaf hleaf => exact absurd (hleaf.mem_of_getElem? hn).1 hnew
    | first hm _ hrest =>
      obtain rfl := Option.some.inj (hn.symm.trans hm)
      obtain ⟨rfl, rfl⟩ := ih hrest
      exact ⟨rfl, rfl⟩

theorem shown_of_mem (h : Draws nodes pending seen lines after) :
    ∀ spot ∈ pending, Shown lines spot.id := by
  induction h with
  | done => simp
  | leaf hleaf _ ih =>
    refine List.forall_mem_cons.mpr ⟨shown_cons.mpr (Or.inl hleaf.nodeId_eq), fun spot hspot => ?_⟩
    exact shown_cons.mpr (Or.inr (ih spot hspot))
  | first _ _ _ ih =>
    refine List.forall_mem_cons.mpr ⟨shown_cons.mpr (Or.inl rfl), fun spot hspot => ?_⟩
    exact shown_cons.mpr (Or.inr (ih spot (List.mem_append_right _ hspot)))

theorem shown_source (h : Draws nodes pending seen lines after) :
    ∀ l ∈ lines, ∀ id n, l.occurrence = .first id n → ∀ source ∈ n.sources, Shown lines source := by
  induction h with
  | done => simp
  | leaf hleaf _ ih =>
    intro l hl id n hfirst source hsource
    rcases List.mem_cons.mp hl with rfl | hl
    · cases hfirst
      cases hleaf
    · exact shown_cons.mpr (Or.inr (ih l hl id n hfirst source hsource))
  | first _ _ hrest ih =>
    intro l hl id n hfirst source hsource
    apply shown_cons.mpr
    rcases List.mem_cons.mp hl with rfl | hl
    · cases hfirst
      obtain ⟨spot, hspot, rfl⟩ := exists_mem_spotsBelow hsource
      exact Or.inr (hrest.shown_of_mem spot (List.mem_append_left _ hspot))
    · exact Or.inr (ih l hl id n hfirst source hsource)

/-- What is drawn can be reached from where the spots are. -/
theorem reaches (h : Draws nodes pending seen lines after)
    (hpending : ∀ spot ∈ pending, Reaches nodes root spot.id) :
    ∀ l ∈ lines, Reaches nodes root l.nodeId := by
  induction h with
  | done => simp
  | leaf hleaf _ ih =>
    obtain ⟨hid, hrest⟩ := List.forall_mem_cons.mp hpending
    rw [← hleaf.nodeId_eq] at hid
    exact List.forall_mem_cons.mpr ⟨hid, ih hrest⟩
  | first hn _ _ ih =>
    obtain ⟨hid, hrest⟩ := List.forall_mem_cons.mp hpending
    refine List.forall_mem_cons.mpr ⟨hid, ih fun spot hspot => ?_⟩
    rcases List.mem_append.mp hspot with hspot | hspot
    · exact hid.tail (refersTo_iff.mpr ⟨_, hn, id_mem_of_mem_spotsBelow hspot⟩)
    · exact hrest spot hspot

theorem eq_missing (h : Draws nodes pending seen lines after) (hnone : nodes[id]? = none) :
    ∀ l ∈ lines, l.nodeId = id → l.occurrence = .missing id := by
  induction h with
  | done => simp
  | leaf hleaf _ ih =>
    refine List.forall_mem_cons.mpr ⟨fun hid => ?_, ih⟩
    obtain rfl := hleaf.nodeId_eq.symm.trans hid
    exact hleaf.eq_missing hnone
  | @first trail other n rest seen after lines hn _ _ ih =>
    refine List.forall_mem_cons.mpr ⟨fun hid => ?_, ih⟩
    obtain rfl : other = id := hid
    rw [hn] at hnone
    cases hnone

theorem eq_again (h : Draws nodes pending seen lines after) (hn : nodes[id]? = some n)
    (hid : id ∈ seen) : ∀ l ∈ lines, l.nodeId = id → l.occurrence = .again id := by
  induction h with
  | done => simp
  | leaf hleaf _ ih =>
    refine List.forall_mem_cons.mpr ⟨fun heq => ?_, ih hid⟩
    obtain rfl := hleaf.nodeId_eq.symm.trans heq
    exact (hleaf.mem_of_getElem? hn).2
  | @first trail other m rest seen after lines _ hnew _ ih =>
    refine List.forall_mem_cons.mpr ⟨fun heq => ?_, ih (Roster.mem_add.mpr (Or.inl hid))⟩
    obtain rfl : other = id := heq
    exact absurd hid hnew

theorem shownOnce (h : Draws nodes pending seen lines after) (hn : nodes[id]? = some n)
    (hnew : id ∉ seen) (hshown : Shown lines id) : ShownOnce lines id n := by
  induction h with
  | done => simp [Shown] at hshown
  | @leaf trail other o rest seen after lines hleaf _ ih =>
    have hne : o.nodeId ≠ id := by
      intro heq
      obtain rfl := hleaf.nodeId_eq.symm.trans heq
      exact hnew (hleaf.mem_of_getElem? hn).1
    exact (ih hnew ((shown_cons.mp hshown).resolve_left hne)).cons hne
  | @first trail other m rest seen after lines hm _ hrest ih =>
    by_cases heq : other = id
    · subst heq
      obtain rfl := Option.some.inj (hn.symm.trans hm)
      have hseen : other ∈ seen.add other := Roster.mem_add.mpr (Or.inr rfl)
      exact ⟨[], trail, lines, rfl, by simp, hrest.eq_again hn hseen⟩
    · have hnew' : id ∉ seen.add other := by
        rw [Roster.mem_add, not_or]
        exact ⟨hnew, Ne.symm heq⟩
      exact (ih hnew' ((shown_cons.mp hshown).resolve_left heq)).cons heq

theorem mem_after (h : Draws nodes pending seen lines after) :
    id ∈ after ↔ id ∈ seen ∨ id < nodes.size ∧ Shown lines id := by
  induction h with
  | done => simp [Shown]
  | @leaf trail other o rest seen after lines hleaf _ ih =>
    rw [ih, shown_cons]
    have hseen : id < nodes.size → o.nodeId = id → id ∈ seen := by
      intro hlt heq
      obtain rfl := hleaf.nodeId_eq.symm.trans heq
      exact (hleaf.mem_of_getElem? (Array.getElem?_eq_getElem hlt)).1
    tauto
  | @first trail other m rest seen after lines hm _ hrest ih =>
    rw [ih, shown_cons, Roster.mem_add]
    have hlt : other < nodes.size := (Array.getElem?_eq_some_iff.mp hm).1
    have heq : (⟨trail, .first other m⟩ : OutlineLine).nodeId = id ↔ id = other := eq_comm
    rw [heq]
    constructor
    · rintro ((hid | rfl) | hid)
      · exact Or.inl hid
      · exact Or.inr ⟨hlt, Or.inl rfl⟩
      · exact Or.inr ⟨hid.1, Or.inr hid.2⟩
    · tauto

/-- Every line stands for a spot of the start or for a reference of a node shown in full. -/
theorem length_eq (h : Draws nodes pending seen lines after) :
    lines.length + (seen.toList.map fun id => (sourcesAt nodes id).length).sum =
      pending.length + (after.toList.map fun id => (sourcesAt nodes id).length).sum := by
  induction h with
  | done => rfl
  | leaf _ _ ih =>
    simp only [List.length_cons]
    omega
  | @first trail id n rest seen after lines hn hnew _ ih =>
    have hsources : sourcesAt nodes id = n.sources := by
      rw [sourcesAt, hn, Option.map_some, Option.getD_some]
    rw [Roster.toList_add, if_neg hnew, List.map_append, List.sum_append, List.map_singleton,
      List.sum_singleton, hsources, List.length_append, length_spotsBelow] at ih
    simp only [List.length_cons]
    omega

theorem exists_spot {next : OutlineLine} (h : Draws nodes pending seen lines after)
    (hnext : lines.head? = some next) : ∃ spot ∈ pending.head?, spot.trail = next.trail := by
  cases h with
  | done => cases hnext
  | leaf | first =>
    obtain rfl := Option.some.inj hnext
    exact ⟨_, rfl, rfl⟩

theorem isChain_steps (h : Draws nodes pending seen lines after) (hpending : Descending pending) :
    lines.IsChain OutlineLine.Steps := by
  induction h with
  | done => exact .nil
  | leaf _ hrest ih =>
    obtain ⟨hspot, hdescending⟩ := List.pairwise_cons.mp hpending
    refine List.isChain_cons.mpr ⟨fun next hnext => Or.inl ?_, ih hdescending⟩
    obtain ⟨spot, htop, htrail⟩ := hrest.exists_spot hnext
    rw [← htrail]
    exact hspot spot (List.mem_of_head? htop)
  | @first trail id n rest seen after lines _ _ hrest ih =>
    refine List.isChain_cons.mpr ⟨fun next hnext => ?_, ih (hpending.expand n.sources)⟩
    obtain ⟨spot, htop, htrail⟩ := hrest.exists_spot hnext
    unfold OutlineLine.Steps
    rw [← htrail]
    rcases List.mem_append.mp (List.mem_of_head? htop) with hspot | hspot
    · exact Or.inr ⟨length_trail_of_mem_spotsBelow hspot, id, n, rfl⟩
    · exact Or.inl ((List.pairwise_cons.mp hpending).1 spot hspot)

end Draws

/-- There is room for one level more than there are nodes left to be shown. -/
structure Room (nodes : Array Node) (depth : Nat) (seen : Roster NodeId) : Prop where
  size_lt : nodes.size < depth + seen.size
  lt_size : ∀ id ∈ seen, id < nodes.size

theorem Room.depth_pos (h : Room nodes depth seen) : 0 < depth := by
  have hseen := length_le_of_nodup seen.nodup_toList fun id hid =>
    h.lt_size id (Roster.mem_toList.mp hid)
  have hlt := h.size_lt
  have hsize : seen.toList.length = seen.size := rfl
  omega

theorem Room.enter (h : Room nodes (depth + 1) seen) (hid : id < nodes.size) (hnew : id ∉ seen) :
    Room nodes depth (seen.add id) where
  size_lt := by
    have hlt := h.size_lt
    rw [Roster.size, Roster.items_add_of_not_mem hnew, Array.size_push]
    rw [Roster.size] at hlt
    omega
  lt_size v hv := by
    rcases Roster.mem_add.mp hv with hv | rfl
    · exact h.lt_size v hv
    · exact hid

theorem Room.deepen (h : Room nodes depth seen) : Room nodes (depth + 1) seen where
  size_lt := by
    have hlt := h.size_lt
    omega
  lt_size := h.lt_size

def DrawnBy (nodes : Array Node) (depth : Nat) (spots : List Spot) (seen : Roster NodeId)
    (result : List OutlineLine × Roster NodeId) : Prop :=
  Room nodes depth result.2 ∧ ∀ rest lines after, Draws nodes rest result.2 lines after →
    Draws nodes (spots ++ rest) seen (result.1 ++ lines) after

theorem outlineAll_drawn
    {enter : List Bool → NodeId → Roster NodeId → List OutlineLine × Roster NodeId}
    (henter : ∀ trail id seen, Room nodes depth seen →
      DrawnBy nodes depth [⟨trail, id⟩] seen (enter trail id seen))
    (trail : List Bool) (ids : List NodeId) (hroom : Room nodes depth seen) :
    DrawnBy nodes depth (spotsBelow trail ids) seen (outlineAll enter trail ids seen) := by
  induction ids generalizing seen with
  | nil => exact ⟨hroom, fun rest lines after hrest => hrest⟩
  | cons id ids ih =>
    obtain ⟨hhere, hdraws⟩ := henter (trail ++ [ids.isEmpty]) id seen hroom
    obtain ⟨hothers, hdraws'⟩ := ih hhere
    refine ⟨hothers, fun rest lines after hrest => ?_⟩
    have hboth := hdraws _ _ _ (hdraws' rest lines after hrest)
    simpa [outlineAll, spotsBelow] using hboth

theorem outlineFrom_drawn (depth : Nat) (trail : List Bool) (id : NodeId)
    (hroom : Room nodes depth seen) :
    DrawnBy nodes depth [⟨trail, id⟩] seen (outlineFrom nodes depth trail id seen) := by
  -- To enter a node uses up one level and one of the nodes not shown yet, so the room stays.
  induction depth generalizing trail id seen with
  | zero => exact absurd hroom.depth_pos (Nat.lt_irrefl 0)
  | succ depth ih =>
    unfold outlineFrom
    split
    · rename_i hnone
      exact ⟨hroom, fun rest lines after hrest => .leaf (.missing hnone) hrest⟩
    · rename_i n hn
      have hlt := (Array.getElem?_eq_some_iff.mp hn).1
      split
      · rename_i hseen
        exact ⟨hroom, fun rest lines after hrest => .leaf (.again hlt hseen) hrest⟩
      · rename_i hnew
        obtain ⟨hbelow, hdraws⟩ := outlineAll_drawn (fun trail id seen => ih trail id) trail
          n.sources (hroom.enter hlt hnew)
        exact ⟨hbelow.deepen, fun rest lines after hrest =>
          .first hn hnew (hdraws rest lines after hrest)⟩

namespace Graph

theorem outlineFrom_draws (g : Graph) (hdepth : g.size < depth) :
    ∃ seen, Draws g.nodes [⟨[], g.root⟩] .empty
      (outlineFrom g.nodes depth [] g.root .empty).1 seen := by
  have hroom : Room g.nodes depth .empty :=
    ⟨hdepth, fun id hid => absurd hid (Roster.not_mem_empty id)⟩
  have hdraws := (outlineFrom_drawn depth [] g.root hroom).2 [] [] _ (.done _)
  exact ⟨_, by simpa using hdraws⟩

structure Outlined (g : Graph) (lines : List OutlineLine) : Prop where
  /-- The lines are drawn in finitely many steps. -/
  drawn : ∃ seen, Draws g.nodes [⟨[], g.root⟩] .empty lines seen
  /-- The bound on the depth cuts nothing off. -/
  unbounded : ∀ depth, g.size < depth → (outlineFrom g.nodes depth [] g.root .empty).1 = lines
  text_eq : (g.tree.split '\n').toList.map (·.copy) = lines.map OutlineLine.text ++ [""]
  shown_iff : ∀ id, Shown lines id ↔ Reaches g.nodes g.root id
  shownOnce : ∀ id n, g.node? id = some n → Reaches g.nodes g.root id → ShownOnce lines id n
  missing : ∀ l ∈ lines, g.node? l.nodeId = none → l.occurrence = .missing l.nodeId
  steps : lines.IsChain OutlineLine.Steps
  length_eq : ∃ reached : Finset NodeId,
    (∀ id, id ∈ reached ↔ id < g.size ∧ Reaches g.nodes g.root id) ∧
      lines.length = 1 + ∑ id ∈ reached, (sourcesAt g.nodes id).length

end Graph

namespace Draws

theorem shown_iff (h : Draws nodes [⟨[], root⟩] .empty lines after) :
    Shown lines id ↔ Reaches nodes root id := by
  constructor
  · rintro ⟨l, hl, rfl⟩
    exact h.reaches (by simp [ReflTransGen.refl]) l hl
  · intro hreach
    induction hreach with
    | refl => exact h.shown_of_mem ⟨[], root⟩ (by simp)
    | @tail id source _ href ih =>
      obtain ⟨n, hn, hsource⟩ := refersTo_iff.mp href
      obtain ⟨before, trail, later, hlines, -⟩ := h.shownOnce hn (Roster.not_mem_empty id) ih
      have hline : ⟨trail, .first id n⟩ ∈ lines := by simp [hlines]
      exact h.shown_source _ hline id n rfl source hsource

theorem exists_reached (h : Draws nodes [⟨[], root⟩] .empty lines after) :
    ∃ reached : Finset NodeId, (∀ id, id ∈ reached ↔ id < nodes.size ∧ Reaches nodes root id) ∧
      lines.length = 1 + ∑ id ∈ reached, (sourcesAt nodes id).length := by
  refine ⟨after.toList.toFinset, fun id => ?_, ?_⟩
  · rw [List.mem_toFinset, Roster.mem_toList, h.mem_after, h.shown_iff,
      or_iff_right (Roster.not_mem_empty id)]
  · rw [List.sum_toFinset _ after.nodup_toList]
    exact h.length_eq

end Draws

/-- Drawing ends on every graph, shows what the root reaches and each node once in full. -/
theorem Graph.outline_outlined (g : Graph) : g.Outlined g.outline := by
  obtain ⟨seen, h⟩ := g.outlineFrom_draws (Nat.lt_succ_self g.size)
  exact {
    drawn := ⟨seen, h⟩
    unbounded := fun depth hdepth => by
      obtain ⟨seen', h'⟩ := g.outlineFrom_draws hdepth
      exact (h'.unique h).1
    text_eq := g.split_tree
    shown_iff := fun id => h.shown_iff
    shownOnce := fun id n hn hreach =>
      h.shownOnce hn (Roster.not_mem_empty id) (h.shown_iff.mpr hreach)
    missing := fun l hl hnone => h.eq_missing hnone l hl rfl
    steps := h.isChain_steps (List.pairwise_singleton _ _)
    length_eq := h.exists_reached }

/-- A node that refers to another one, to itself and to none. -/
example : (⟨#[.or ⟨0, 2⟩ [1, 0, 5], .terminal ⟨0, 2⟩], 0, { dim := 2 }⟩ : Graph).tree =
    "#0 OR[0, 2)\n├─ #1 T[0, 2)\n├─ #0 → (see above)\n└─ #5 <missing>\n" := by
  decide +kernel

end AndOrFlow
