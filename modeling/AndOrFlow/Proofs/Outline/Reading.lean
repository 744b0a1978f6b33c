import AndOrFlow.Proofs.Outline.Drawing

/-!
# Reading a graph off its text

The text of a line leaves only the sources of a node open. They are the nodes of the lines one level
below, and the lengths of the trails say where these end: no spot below on the stack is as deep. So
the stack that an outline was drawn from is known from its lines, from the last line backwards, and
with it the root and all nodes that the root reaches.
-/
namespace AndOrFlow
open Relation

variable {nodes others : Array Node} {root id : Nat} {n : Node} {trail : List Bool}
  {o a : Occurrence} {pending pending' rest rest' : List Spot}
  {seen seen' after after' : Roster NodeId} {lines lines' : List OutlineLine}

/-- A line without sources is known from its text. -/
theorem Leaf.eq_of_like (h : Leaf nodes seen id o) (hlike : o.Like a) : o = a := by
  cases h with
  | missing | again =>
    cases hlike
    rfl

theorem not_mem_of_deeper (hrest : ∀ spot ∈ rest, spot.trail.length ≤ trail.length) (last : Bool)
    (id : NodeId) : ⟨trail ++ [last], id⟩ ∉ rest := by
  intro hmem
  have hle := hrest _ hmem
  rw [List.length_append] at hle
  exact Nat.not_succ_le_self _ hle

/-- The spots below a node end where the stack is no deeper than the node. -/
theorem spotsBelow_append_inj {ids ids' : List NodeId}
    (hrest : ∀ spot ∈ rest, spot.trail.length ≤ trail.length)
    (hrest' : ∀ spot ∈ rest', spot.trail.length ≤ trail.length)
    (h : spotsBelow trail ids ++ rest = spotsBelow trail ids' ++ rest') :
    ids = ids' ∧ rest = rest' := by
  induction ids generalizing ids' with
  | nil =>
    cases ids' with
    | nil => exact ⟨rfl, h⟩
    | cons id' ids' =>
      refine absurd ?_ (not_mem_of_deeper hrest ids'.isEmpty id')
      rw [show rest = _ from h]
      exact List.mem_cons_self
  | cons id ids ih =>
    cases ids' with
    | nil =>
      refine absurd ?_ (not_mem_of_deeper hrest' ids.isEmpty id)
      rw [show rest' = _ from h.symm]
      exact List.mem_cons_self
    | cons id' ids' =>
      obtain ⟨hspot, hbelow⟩ := List.cons.inj h
      obtain ⟨rfl, hsame⟩ := ih hbelow
      have hid : id = id' := congrArg Spot.id hspot
      rw [hid]
      exact ⟨rfl, hsame⟩

namespace Draws

/-- Lines of the same text are the same lines, drawn from the same spots. -/
theorem eq_of_like (h : Draws nodes pending seen lines after)
    (h' : Draws others pending' seen' lines' after') (hdeep : Descending pending)
    (hdeep' : Descending pending') (hlike : List.Forall₂ OutlineLine.Like lines lines') :
    pending = pending' ∧ lines = lines' := by
  -- What follows a line gives the stack after it, and from that and the line comes the stack before.
  induction h generalizing pending' seen' lines' with
  | done =>
    cases hlike
    cases h'
    exact ⟨rfl, rfl⟩
  | @leaf trail id o rest _ _ _ hleaf _ ih =>
    obtain ⟨-, hbelow⟩ := List.pairwise_cons.mp hdeep
    cases hlike with
    | cons hline hlines =>
      cases h' with
      | @leaf trail' id' o' rest' _ _ _ hleaf' hrest' =>
        obtain ⟨rfl, rfl⟩ := ih hrest' hbelow (List.pairwise_cons.mp hdeep').2 hlines
        obtain rfl : trail = trail' := hline.trail_eq
        obtain rfl : o = o' := hleaf.eq_of_like hline.occurrence
        rw [← hleaf.nodeId_eq, hleaf'.nodeId_eq]
        exact ⟨rfl, rfl⟩
      | first =>
        cases hleaf with
        | missing | again => cases hline.occurrence
  | @first trail id n rest _ _ _ _ _ _ ih =>
    cases hlike with
    | cons hline hlines =>
      cases h' with
      | leaf hleaf' =>
        cases hleaf' with
        | missing | again => cases hline.occurrence
      | @first trail' id' n' rest' _ _ _ _ _ hrest' =>
        obtain ⟨hstack, rfl⟩ := ih hrest' (hdeep.expand _) (hdeep'.expand _) hlines
        obtain rfl : trail = trail' := hline.trail_eq
        obtain ⟨hsources, rfl⟩ := spotsBelow_append_inj (List.pairwise_cons.mp hdeep).1
          (List.pairwise_cons.mp hdeep').1 hstack
        cases hline.occurrence with
        | first _ hkind hspan =>
          rw [Node.eq_of_parts hkind hspan hsources]
          exact ⟨rfl, rfl⟩

theorem getElem?_of_first (h : Draws nodes pending seen lines after) :
    ∀ l ∈ lines, ∀ id n, l.occurrence = .first id n → nodes[id]? = some n := by
  induction h with
  | done => simp
  | leaf hleaf _ ih =>
    refine List.forall_mem_cons.mpr ⟨fun id n hfirst => ?_, ih⟩
    cases hfirst
    cases hleaf
  | first hn _ _ ih =>
    refine List.forall_mem_cons.mpr ⟨fun id n hfirst => ?_, ih⟩
    cases hfirst
    exact hn

/-- Drawing looks at no node but those that can be reached from the spots. -/
theorem of_agree (h : Draws nodes pending seen lines after)
    (hagree : ∀ spot ∈ pending, ∀ id, Reaches nodes spot.id id → nodes[id]? = others[id]?) :
    Draws others pending seen lines after := by
  induction h with
  | done seen => exact .done seen
  | leaf hleaf _ ih =>
    obtain ⟨hid, hrest⟩ := List.forall_mem_cons.mp hagree
    refine .leaf ?_ (ih hrest)
    have hsame := hid _ .refl
    cases hleaf with
    | missing hnone => exact .missing (hsame ▸ hnone)
    | again hlt hseen =>
      rw [Array.getElem?_eq_getElem hlt] at hsame
      exact .again (Array.getElem?_eq_some_iff.mp hsame.symm).1 hseen
  | first hn hnew _ ih =>
    obtain ⟨hid, hrest⟩ := List.forall_mem_cons.mp hagree
    refine .first ((hid _ .refl).symm.trans hn) hnew (ih fun spot hspot target hreach => ?_)
    rcases List.mem_append.mp hspot with hspot | hspot
    · have href := refersTo_iff.mpr ⟨_, hn, id_mem_of_mem_spotsBelow hspot⟩
      exact hid target (hreach.head href)
    · exact hrest spot hspot target hreach

/-- The lines of an outline show just the nodes of the graph that its root reaches. -/
theorem exists_first_iff (h : Draws nodes [⟨[], root⟩] .empty lines after) :
    (∃ trail, ⟨trail, .first id n⟩ ∈ lines) ↔ nodes[id]? = some n ∧ Reaches nodes root id := by
  constructor
  · rintro ⟨trail, hline⟩
    exact ⟨h.getElem?_of_first _ hline id n rfl, h.shown_iff.mp ⟨_, hline, rfl⟩⟩
  · rintro ⟨hn, hreach⟩
    obtain ⟨before, trail, later, rfl, -⟩ :=
      h.shownOnce hn (Roster.not_mem_empty id) (h.shown_iff.mpr hreach)
    exact ⟨trail, by simp⟩

end Draws

namespace Graph

/-- From the root on, there is no difference between two graphs. -/
structure SameInReach (g h : Graph) : Prop where
  root_eq : g.root = h.root
  reaches_iff : ∀ id, Reaches g.nodes g.root id ↔ Reaches h.nodes h.root id
  node_eq : ∀ id, Reaches g.nodes g.root id → g.node? id = h.node? id

/-- The text of a graph tells its root and what is reached from there, and nothing else. -/
theorem tree_eq_iff (g h : Graph) : g.tree = h.tree ↔ g.SameInReach h := by
  obtain ⟨seen, hg⟩ := g.outline_outlined.drawn
  obtain ⟨seen', hh⟩ := h.outline_outlined.drawn
  constructor
  · intro heq
    obtain ⟨hstack, hlines⟩ := hg.eq_of_like hh (List.pairwise_singleton _ _)
      (List.pairwise_singleton _ _) (like_of_tree heq)
    rw [← hlines] at hh
    have hreaches : ∀ id, Reaches g.nodes g.root id ↔ Reaches h.nodes h.root id := fun id =>
      hg.shown_iff.symm.trans hh.shown_iff
    refine ⟨congrArg Spot.id (List.cons.inj hstack).1, hreaches, fun id hreach => ?_⟩
    refine Option.ext fun n => ?_
    have hsame : g.nodes[id]? = some n ∧ Reaches g.nodes g.root id ↔
        h.nodes[id]? = some n ∧ Reaches h.nodes h.root id :=
      hg.exists_first_iff.symm.trans hh.exists_first_iff
    rwa [and_iff_left hreach, and_iff_left ((hreaches id).mp hreach)] at hsame
  · intro hsame
    have hg' : Draws h.nodes [⟨[], g.root⟩] .empty g.outline seen :=
      hg.of_agree (List.forall_mem_singleton.mpr hsame.node_eq)
    rw [hsame.root_eq] at hg'
    unfold tree
    rw [(hg'.unique hh).1]

end Graph
end AndOrFlow
