import AndOrFlow.Graph.Validity
import AndOrFlow.Proofs.Walk
import Mathlib.Algebra.GroupWithZero.Nat

/-!
# What validation accepts

A graph is accepted exactly when the walk from its root succeeds, the root covers the domain and
every stored node keeps the rule of its kind. If moreover no leaf may be empty, a node that the root
reaches covers a proper span, the widths of an and-node's children add up to its own, and the walk
lists a terminal first.
-/
namespace AndOrFlow

namespace Graph

variable {g : Graph} {id : NodeId} {n : Node} {s : Span} {order : Roster NodeId} {u : Unit}
  {lo hi : Nat} {ids : List NodeId}

/-- The nodes tile what lies between two positions, left to right. -/
def Tiles (g : Graph) (hi : Nat) : Nat → List NodeId → Prop
  | position, [] => position = hi
  | position, child :: rest =>
    ∃ n, g.node? child = some n ∧ n.span.lo = position ∧ g.Tiles hi n.span.hi rest

def Keeps (g : Graph) : Node → Prop
  | .terminal s => s.lo ≤ s.hi ∧ g.bounds.Admits s.width
  | .and s children => 2 ≤ children.length ∧ g.Tiles s.hi s.lo children
  | .or s alternatives => alternatives ≠ [] ∧
      ∀ id ∈ alternatives, ∃ n, g.node? id = some n ∧ n.isOr = false ∧ n.span = s

theorem Tiles.exists_node (h : g.Tiles hi lo ids) : ∀ id ∈ ids, ∃ n, g.node? id = some n := by
  induction ids generalizing lo with
  | nil => simp
  | cons child rest ih =>
    obtain ⟨n, hn, -, hrest⟩ := h
    exact List.forall_mem_cons.mpr ⟨⟨n, hn⟩, ih hrest⟩

theorem Keeps.exists_source (h : g.Keeps n) : ∀ id ∈ n.sources, ∃ m, g.node? id = some m := by
  cases n with
  | terminal s => simp [Node.sources]
  | and s children => exact h.2.exists_node
  | or s alternatives =>
    intro id hid
    obtain ⟨m, hm, -⟩ := h.2 id hid
    exact ⟨m, hm⟩

theorem checkTiling_eq_ok_iff :
    g.checkTiling id s lo ids = .ok u ↔ g.Tiles s.hi lo ids := by
  induction ids generalizing lo with
  | nil => rw [checkTiling, Failure.demand_eq_ok_iff, Tiles]
  | cons child rest ih =>
    rw [checkTiling, Tiles]
    cases hn : g.node? child with
    | none => simp [Failure.raise]
    | some n => simp [bind_eq_ok_iff, ih]

theorem checkAlternative_eq_ok_iff {alternative : NodeId} :
    g.checkAlternative id s alternative = .ok u ↔
      ∃ n, g.node? alternative = some n ∧ n.isOr = false ∧ n.span = s := by
  rw [checkAlternative]
  cases hn : g.node? alternative with
  | none => simp [Failure.raise]
  | some n => simp

theorem checkNode_eq_ok_iff : g.checkNode id n = .ok u ↔ g.Keeps n := by
  cases n with
  | terminal s => simp [checkNode, Keeps, bind_eq_ok_iff, Span.length_eq_ok_iff]
  | and s children => simp [checkNode, Keeps, bind_eq_ok_iff, checkTiling_eq_ok_iff]
  | or s alternatives =>
    simp [checkNode, Keeps, bind_eq_ok_iff, forM_eq_ok_iff, checkAlternative_eq_ok_iff]

theorem validate_eq_ok_iff : g.validate = .ok u ↔ (∃ order, g.postOrder = .ok order) ∧
    (∃ n, g.rootNode? = some n ∧ n.span = ⟨0, g.bounds.dim⟩) ∧
      ∀ id n, g.node? id = some n → g.Keeps n := by
  have hnodes : (forM g.nodes.toList.zipIdx fun e => g.checkNode e.2 e.1) = .ok u ↔
      ∀ id n, g.node? id = some n → g.Keeps n := by
    simp only [forM_eq_ok_iff, checkNode_eq_ok_iff, Prod.forall, List.mk_mem_zipIdx_iff_getElem?,
      Array.getElem?_toList, node?]
    exact forall_comm
  rw [validate, bind_eq_ok_iff]
  cases g.postOrder with
  | error e => simp [Except.mapError]
  | ok order =>
    cases g.rootNode? with
    | none => simp [Except.mapError, Failure.raise, bind, Except.bind]
    | some n => simp [Except.mapError, bind_eq_ok_iff, hnodes]

/-- A graph that is accepted and has no empty leaves. -/
structure Proper (g : Graph) : Prop where
  valid : g.validate = .ok ()
  minSize_pos : 1 ≤ g.bounds.minSize

namespace Proper

variable (h : g.Proper)
include h

theorem keeps (hn : g.node? id = some n) : g.Keeps n := (validate_eq_ok_iff.mp h.valid).2.2 id n hn

theorem exists_root : ∃ n, g.node? g.root = some n ∧ n.span = ⟨0, g.bounds.dim⟩ :=
  (validate_eq_ok_iff.mp h.valid).2.1

theorem exists_order : ∃ order, g.postOrder = .ok order ∧ Listed g.nodes g.root order := by
  obtain ⟨order, horder⟩ := (validate_eq_ok_iff.mp h.valid).1
  exact ⟨order, horder, listed_of_postOrder horder⟩

end Proper

/-- The width of a node's span, and zero where there is no node. -/
def widthAt (g : Graph) (id : NodeId) : Nat := ((g.node? id).map fun n => n.span.width).getD 0

theorem widthAt_of_node? (hn : g.node? id = some n) : g.widthAt id = n.span.width := by
  rw [widthAt, hn, Option.map_some, Option.getD_some]

/-- Where no tile is inverted, the tiles fill the stretch between the positions. -/
theorem Tiles.sum_width (h : g.Tiles hi lo ids)
    (hproper : ∀ id ∈ ids, ∀ n, g.node? id = some n → n.span.Proper) :
    lo + (ids.map g.widthAt).sum = hi := by
  induction ids generalizing lo with
  | nil => simpa [Tiles] using h
  | cons child rest ih =>
    obtain ⟨n, hn, rfl, hrest⟩ := h
    have hlt : n.span.lo < n.span.hi := hproper child (by simp) n hn
    have hsum := ih hrest fun id hid => hproper id (by simp [hid])
    rw [List.map_cons, List.sum_cons, widthAt_of_node? hn, Span.width]
    omega

theorem Tiles.proper (h : g.Tiles hi lo ids) (hne : ids ≠ [])
    (hproper : ∀ id ∈ ids, ∀ n, g.node? id = some n → n.span.Proper) : lo < hi := by
  cases ids with
  | nil => exact absurd rfl hne
  | cons child rest =>
    have hsum := h.sum_width hproper
    obtain ⟨n, hn, -, -⟩ := h
    have hlt : n.span.lo < n.span.hi := hproper child (by simp) n hn
    rw [List.map_cons, List.sum_cons, widthAt_of_node? hn, Span.width] at hsum
    omega

theorem Keeps.proper (h : g.Keeps n) (hmin : 1 ≤ g.bounds.minSize)
    (hproper : ∀ id ∈ n.sources, ∀ m, g.node? id = some m → m.span.Proper) : n.span.Proper := by
  cases n with
  | terminal s =>
    obtain ⟨-, hadmits, -⟩ := h
    exact Nat.lt_of_sub_pos (Nat.le_trans hmin hadmits)
  | and s children =>
    obtain ⟨htwo, htiles⟩ := h
    refine htiles.proper ?_ hproper
    rintro rfl
    simp at htwo
  | or s alternatives =>
    obtain ⟨hne, halternatives⟩ := h
    obtain ⟨id, hid⟩ := List.exists_mem_of_ne_nil _ hne
    obtain ⟨m, hm, -, hspan⟩ := halternatives id hid
    have hlt := hproper id hid m hm
    rwa [hspan] at hlt

theorem Keeps.kind_eq_terminal (h : g.Keeps n) (hnone : n.sources = []) :
    n = .terminal n.span := by
  cases n with
  | terminal s => rfl
  | and s children =>
    obtain rfl : children = [] := hnone
    simp [Keeps] at h
  | or s alternatives =>
    obtain rfl : alternatives = [] := hnone
    simp [Keeps] at h

namespace Proper

variable (h : g.Proper) (hl : Listed g.nodes g.root order)
include h hl

theorem proper_of_mem : ∀ id ∈ order, ∀ n, g.node? id = some n → n.span.Proper := by
  refine hl.settled.induct fun id hid ih n hn => ?_
  refine (h.keeps hn).proper h.minSize_pos fun source hsource m hm => ?_
  exact (ih source (refersTo_iff.mpr ⟨n, hn, hsource⟩)).2 m hm

theorem exists_terminal_first : ∃ id s rest, order.toList = id :: rest ∧
    g.node? id = some (.terminal s) := by
  cases hlist : order.toList with
  | nil => simpa [hlist] using hl.last
  | cons id rest =>
    have hid : id < g.nodes.size := hl.settled.lt_size id (by simp [← Roster.mem_toList, hlist])
    have hn : g.node? id = some g.nodes[id] := Array.getElem?_eq_getElem hid
    have hnone : g.nodes[id].sources = [] := by
      refine List.eq_nil_iff_forall_not_mem.mpr fun source hsource => ?_
      have href : RefersTo g.nodes id source := refersTo_iff.mpr ⟨_, hn, hsource⟩
      simpa using hl.settled.sources_before [] id rest hlist source href
    refine ⟨id, g.nodes[id].span, rest, rfl, ?_⟩
    rw [← (h.keeps hn).kind_eq_terminal hnone]
    exact hn

end Proper

end Graph
end AndOrFlow
