import AndOrFlow.Proofs.PostOrder
import AndOrFlow.Proofs.Validity
import Mathlib.Data.Fintype.EquivFin
import Mathlib.Order.WellFounded

/-!
# Nodes over no position

No rule of validation compares the two ends of a span. A terminal over an empty span is refused for
its length, and one over an inverted span has no length at all, which is a fault and not an error.
An and-node or or-node over such a span keeps its rule only if one of its sources lies over such a
span too, so a graph is accepted with it only if it leads into a cycle; and as the walk from the
root found no cycle, all this is out of its reach.
-/
namespace AndOrFlow
open Relation

/-- Where every number is followed by another one, and none is too large, some of them lead
round. -/
theorem exists_cycle_of_next {r : Nat → Nat → Prop} {p : Nat → Prop} {size i : Nat}
    (hlt : ∀ j, p j → j < size) (hnext : ∀ j, p j → ∃ k, r j k ∧ p k) (hi : p i) :
    ∃ j, p j ∧ ReflTransGen r i j ∧ TransGen r j j := by
  by_contra hround
  push Not at hround
  -- What the number leads to is finite, so without a cycle one of these would come last.
  let Led := { j // p j ∧ ReflTransGen r i j }
  have : Finite Led :=
    Finite.of_injective (fun j : Led => (⟨j.1, hlt j.1 j.2.1⟩ : Fin size))
      fun j k heq => Subtype.ext (Fin.mk.inj heq)
  have : IsTrans Led fun j k => TransGen r k.1 j.1 := ⟨fun _ _ _ hjk hkl => hkl.trans hjk⟩
  have : Std.Irrefl fun j k : Led => TransGen r k.1 j.1 := ⟨fun j => hround j.1 j.2.1 j.2.2⟩
  have hwf : WellFounded fun j k : Led => TransGen r k.1 j.1 :=
    Finite.wellFounded_of_trans_of_irrefl _
  obtain ⟨last, -, hlast⟩ := hwf.has_min Set.univ ⟨⟨i, hi, .refl⟩, trivial⟩
  obtain ⟨k, hk, hpk⟩ := hnext last.1 last.2.1
  exact hlast ⟨k, hpk, last.2.2.tail hk⟩ trivial (.single hk)

namespace Graph

variable {g : Graph} {id source leaf : NodeId} {n : Node} {s : Span} {ids : List NodeId}
  {lo : Nat} {f : Fault}

/-! ## Where validation faults -/

theorem checkTiling_ne_fault : g.checkTiling id s lo ids ≠ .error (.fault f) := by
  induction ids generalizing lo with
  | nil => exact Failure.demand_ne_fault
  | cons child rest ih =>
    rw [checkTiling]
    split
    · exact Failure.raise_ne_fault
    · simp [bind_eq_error_iff, ih]

theorem checkAlternative_ne_fault : g.checkAlternative id s source ≠ .error (.fault f) := by
  rw [checkAlternative]
  split
  · exact Failure.raise_ne_fault
  · exact Failure.demand_ne_fault

/-- An inverted leaf is the only node that a check has no answer for. -/
theorem checkNode_eq_fault_iff : g.checkNode id n = .error (.fault f) ↔
    f = .subtraction ∧ n.kind = .terminal ∧ n.span.hi < n.span.lo := by
  cases n with
  | terminal s =>
    simp [checkNode, bind_eq_error_iff, Span.length_eq_fault_iff, Node.kind, Node.span]
  | and s children =>
    simp [checkNode, bind_eq_error_iff, checkTiling_ne_fault, Node.kind]
  | or s alternatives =>
    simp [checkNode, bind_eq_error_iff, forM_eq_error_iff, checkAlternative_ne_fault, Node.kind]

/-- The first node to break the rule of its kind is an inverted leaf. -/
def FaultsAt (g : Graph) (leaf : NodeId) : Prop :=
  (∃ n, g.node? leaf = some n ∧ n.kind = .terminal ∧ n.span.hi < n.span.lo) ∧
    ∀ id < leaf, ∀ n, g.node? id = some n → g.Keeps n

/-- What validation looks at before it comes to the nodes. -/
structure Rooted (g : Graph) : Prop where
  order : ∃ order, g.postOrder = .ok order
  root : ∃ n, g.rootNode? = some n ∧ n.span = ⟨0, g.bounds.dim⟩

theorem validate_eq_fault_iff : g.validate = .error (.fault f) ↔
    f = .subtraction ∧ g.Rooted ∧ ∃ leaf, g.FaultsAt leaf := by
  have hnodes : (forM g.nodes.toList.zipIdx fun e => g.checkNode e.2 e.1) = .error (.fault f) ↔
      f = .subtraction ∧ ∃ leaf, g.FaultsAt leaf := by
    simp only [forM_eq_error_iff, List.getElem?_zipIdx, Array.getElem?_toList,
      Option.map_eq_some_iff, FaultsAt, node?]
    constructor
    · rintro ⟨leaf, -, ⟨n, hn, rfl⟩, hfault, hbefore⟩
      obtain ⟨rfl, hleaf⟩ := checkNode_eq_fault_iff.mp hfault
      refine ⟨rfl, leaf, ⟨n, hn, hleaf⟩, fun id hid m hm => ?_⟩
      exact checkNode_eq_ok_iff.mp (hbefore id hid _ ⟨m, hm, rfl⟩)
    · rintro ⟨rfl, leaf, ⟨n, hn, hleaf⟩, hbefore⟩
      refine ⟨leaf, _, ⟨n, hn, rfl⟩, checkNode_eq_fault_iff.mpr ⟨rfl, hleaf⟩, ?_⟩
      rintro id hid - ⟨m, hm, rfl⟩
      exact checkNode_eq_ok_iff.mpr (hbefore id hid m hm)
  have hrooted : g.Rooted ↔ (∃ order, g.postOrder = .ok order) ∧
      ∃ n, g.rootNode? = some n ∧ n.span = ⟨0, g.bounds.dim⟩ :=
    ⟨fun h => ⟨h.order, h.root⟩, fun h => ⟨h.1, h.2⟩⟩
  rw [validate, hrooted, bind_eq_error_iff]
  cases g.postOrder with
  | error e => simp [Except.mapError]
  | ok order =>
    cases g.rootNode? with
    | none =>
      simp [Except.mapError, bind_eq_error_iff, Failure.raise]
    | some n => simp [Except.mapError, bind_eq_error_iff, hnodes, and_left_comm]

/-! ## What acceptance says -/

/-- A stored node over an empty or inverted span. -/
def Hollow (g : Graph) (id : NodeId) : Prop :=
  ∃ n, g.node? id = some n ∧ n.span.hi ≤ n.span.lo

theorem Hollow.lt_size (h : g.Hollow id) : id < g.nodes.size := by
  obtain ⟨n, hn, -⟩ := h
  exact (Array.getElem?_eq_some_iff.mp hn).1

namespace Proper

variable (h : g.Proper)
include h

/-- A node that keeps its rule is over a proper span if its sources are. -/
theorem exists_hollow_source (hid : g.Hollow id) :
    ∃ source, RefersTo g.nodes id source ∧ g.Hollow source := by
  obtain ⟨n, hn, hle⟩ := hid
  by_contra hnone
  push Not at hnone
  refine Nat.not_lt.mpr hle ((h.keeps hn).proper h.minSize_pos fun source hsource m hm => ?_)
  have href : RefersTo g.nodes id source := refersTo_iff.mpr ⟨n, hn, hsource⟩
  exact Nat.lt_of_not_le fun hm' => hnone source href ⟨m, hm, hm'⟩

theorem not_hollow_of_reaches (hr : Reaches g.nodes g.root id) : ¬ g.Hollow id := by
  rintro ⟨n, hn, hle⟩
  obtain ⟨order, -, hl⟩ := h.exists_order
  exact Nat.not_lt.mpr hle (h.proper_of_mem hl id ((hl.mem_iff id).mpr hr) n hn)

theorem exists_hollow_cycle (hid : g.Hollow id) :
    ∃ c, g.Hollow c ∧ Reaches g.nodes id c ∧ TransGen (RefersTo g.nodes) c c :=
  exists_cycle_of_next (fun _ => Hollow.lt_size) (fun _ => h.exists_hollow_source) hid

end Proper

structure HollowDecided (g : Graph) (id : NodeId) : Prop where
  /-- It is accepted only if the node is out of reach and leads to others that lead round. -/
  accepted : g.validate = .ok () → ¬ Reaches g.nodes g.root id ∧
    ∃ c, g.Hollow c ∧ Reaches g.nodes id c ∧ TransGen (RefersTo g.nodes) c c
  /-- There is no answer exactly if the first node to break its rule is an inverted leaf. -/
  fault_iff : ∀ f, g.validate = .error (.fault f) ↔
    f = .subtraction ∧ g.Rooted ∧ ∃ leaf, g.FaultsAt leaf
  /-- It is refused where no leaf is inverted and the node is within reach, or leads to none that
  lead round. -/
  refused : (∀ leaf n, g.node? leaf = some n → n.kind = .terminal → n.span.lo ≤ n.span.hi) →
    (Reaches g.nodes g.root id ∨ ∀ c, g.Hollow c → Reaches g.nodes id c →
      ¬ TransGen (RefersTo g.nodes) c c) → ∃ e, g.validate = .error (.error e)

/-- Validation refuses a node over no position with an error, but for two cases: a leaf over an
inverted span ends in a fault, and nodes that refer to each other out of reach are accepted. -/
theorem validate_hollow (g : Graph) (id : NodeId) (hmin : 1 ≤ g.bounds.minSize)
    (hid : g.Hollow id) : g.HollowDecided id := by
  have haccepted : g.validate = .ok () → ¬ Reaches g.nodes g.root id ∧
      ∃ c, g.Hollow c ∧ Reaches g.nodes id c ∧ TransGen (RefersTo g.nodes) c c := by
    intro hvalid
    have h : g.Proper := ⟨hvalid, hmin⟩
    exact ⟨fun hr => h.not_hollow_of_reaches hr hid, h.exists_hollow_cycle hid⟩
  constructor
  case accepted => exact haccepted
  case fault_iff => exact fun f => validate_eq_fault_iff
  case refused =>
    intro hleaves hwhere
    cases hvalid : g.validate with
    | ok u =>
      obtain ⟨hout, c, hc, hr, hround⟩ := haccepted hvalid
      rcases hwhere with hreach | hnone
      · exact absurd hreach hout
      · exact absurd hround (hnone c hc hr)
    | error failure =>
      cases failure with
      | error e => exact ⟨e, rfl⟩
      | fault f =>
        obtain ⟨-, -, leaf, ⟨n, hn, hkind, hlt⟩, -⟩ := validate_eq_fault_iff.mp hvalid
        exact absurd (hleaves leaf n hn hkind) (Nat.not_le.mpr hlt)

/-- Two leaves in a row with an empty choice between them. -/
def emptyBetween : Graph where
  nodes := #[.terminal ⟨0, 1⟩, .terminal ⟨1, 2⟩, .terminal ⟨1, 1⟩, .or ⟨1, 1⟩ [2],
    .and ⟨0, 2⟩ [0, 3, 1]]
  root := 4
  bounds := { dim := 2 }

theorem validate_hollow_emptyBetween : 1 ≤ emptyBetween.bounds.minSize ∧ emptyBetween.Hollow 3 ∧
    ∃ e, emptyBetween.validate = .error (.error e) := by
  have hid : emptyBetween.Hollow 3 := ⟨_, rfl, by decide⟩
  have hall : ∀ n ∈ emptyBetween.nodes, n.kind = .terminal → n.span.lo ≤ n.span.hi := by decide
  have hreach : Reaches emptyBetween.nodes emptyBetween.root 3 :=
    .single (refersTo_iff.mpr ⟨_, rfl, by decide⟩)
  refine ⟨by decide, hid, (validate_hollow emptyBetween 3 (by decide) hid).refused ?_ ?_⟩
  · exact fun leaf n hn => hall n (Array.mem_of_getElem? hn)
  · exact Or.inl hreach

/-- A leaf, and next to it an inverted one. -/
def invertedLeaf : Graph where
  nodes := #[.terminal ⟨0, 1⟩, .terminal ⟨2, 1⟩]
  root := 0
  bounds := { dim := 1 }

/-- A leaf, and next to it an empty span that is put together from itself. -/
def emptyLoop : Graph where
  nodes := #[.terminal ⟨0, 1⟩, .and ⟨1, 1⟩ [1, 1]]
  root := 0
  bounds := { dim := 1 }

/-- Not every graph with a hollow node is refused with an error. -/
theorem validate_hollow_escapes :
    (1 ≤ invertedLeaf.bounds.minSize ∧ invertedLeaf.Hollow 1 ∧
      invertedLeaf.validate = .error (.fault .subtraction)) ∧
    (1 ≤ emptyLoop.bounds.minSize ∧ emptyLoop.Hollow 1 ∧ emptyLoop.validate = .ok ()) := by
  have hfault : invertedLeaf.validate = .error (.fault .subtraction) := by decide +kernel
  have hok : emptyLoop.validate = .ok () := by decide +kernel
  exact ⟨⟨by decide, ⟨_, rfl, by decide⟩, hfault⟩, by decide, ⟨_, rfl, by decide⟩, hok⟩

end Graph
end AndOrFlow
