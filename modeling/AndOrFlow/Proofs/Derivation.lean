import AndOrFlow.Proofs.Unfolding
import AndOrFlow.Proofs.Validity
import Mathlib.Algebra.Order.BigOperators.Group.List

/-!
# What an accepted graph derives

A node derives sequences of spans: a terminal its own span, an and-node a derivation of every child
one after the other, an or-node what one of its alternatives derives. Validation looks at one node
and its sources at a time, and yet whatever an accepted node derives tiles its span with leaves of
admissible length. That there is something to derive takes an induction along the references: the
walk provides it below the root, and where no stored span is empty the widths provide it everywhere.
-/
namespace AndOrFlow
open Relation

namespace Graph

mutual

inductive Derives (g : Graph) : NodeId → List Span → Prop
  | terminal {id : NodeId} {s : Span} (hn : g.node? id = some (.terminal s)) : Derives g id [s]
  | and {id : NodeId} {s : Span} {children : List NodeId} {spans : List Span}
      (hn : g.node? id = some (.and s children)) (h : DerivesEach g children spans) :
      Derives g id spans
  | or {id alternative : NodeId} {s : Span} {alternatives : List NodeId} {spans : List Span}
      (hn : g.node? id = some (.or s alternatives)) (hmem : alternative ∈ alternatives)
      (h : Derives g alternative spans) : Derives g id spans

/-- The nodes derive the sequence between them, each its part, from left to right. -/
inductive DerivesEach (g : Graph) : List NodeId → List Span → Prop
  | nil : DerivesEach g [] []
  | cons {id : NodeId} {ids : List NodeId} {spans more : List Span} (h : Derives g id spans)
      (hrest : DerivesEach g ids more) : DerivesEach g (id :: ids) (spans ++ more)

end

variable {g : Graph} {id : NodeId} {n : Node} {ids : List NodeId} {spans : List Span} {lo hi : Nat}

mutual

/-- Where every stored node keeps its rule, a node derives tilings of its span only. -/
theorem Derives.tiles (hkeeps : ∀ id n, g.node? id = some n → g.Keeps n)
    (hmin : 1 ≤ g.bounds.minSize) {id : NodeId} {n : Node} {spans : List Span}
    (hn : g.node? id = some n) :
    g.Derives id spans → g.bounds.Tiles n.span.hi n.span.lo spans
  | .terminal hid => by
    cases hn.symm.trans hid
    obtain ⟨-, hadmits⟩ := hkeeps _ _ hn
    exact .next (Nat.lt_of_sub_pos (Nat.le_trans hmin hadmits.1)) hadmits .done
  | .and hid heach => by
    cases hn.symm.trans hid
    obtain ⟨-, htiles⟩ := hkeeps _ _ hn
    exact heach.tiles hkeeps hmin htiles
  | .or hid hmem hderives => by
    cases hn.symm.trans hid
    obtain ⟨-, halternatives⟩ := hkeeps _ _ hn
    obtain ⟨m, hm, -, hspan⟩ := halternatives _ hmem
    rw [Node.span, ← hspan]
    exact hderives.tiles hkeeps hmin hm

theorem DerivesEach.tiles (hkeeps : ∀ id n, g.node? id = some n → g.Keeps n)
    (hmin : 1 ≤ g.bounds.minSize) {lo hi : Nat} {ids : List NodeId} {spans : List Span}
    (htiles : g.Tiles hi lo ids) : g.DerivesEach ids spans → g.bounds.Tiles hi lo spans
  | .nil => by
    obtain rfl : lo = hi := htiles
    exact .done
  | .cons hderives hrest => by
    obtain ⟨n, hn, rfl, hmore⟩ := htiles
    exact (hderives.tiles hkeeps hmin hn).append (hrest.tiles hkeeps hmin hmore)

end

theorem exists_derivesEach (h : ∀ id ∈ ids, ∃ spans, g.Derives id spans) :
    ∃ spans, g.DerivesEach ids spans := by
  induction ids with
  | nil => exact ⟨[], .nil⟩
  | cons id rest ih =>
    obtain ⟨hfirst, hrest⟩ := List.forall_mem_cons.mp h
    obtain ⟨spans, hspans⟩ := hfirst
    obtain ⟨more, hmore⟩ := ih hrest
    exact ⟨spans ++ more, .cons hspans hmore⟩

theorem Keeps.exists_derives (h : g.Keeps n) (hn : g.node? id = some n)
    (hsources : ∀ source ∈ n.sources, ∃ spans, g.Derives source spans) :
    ∃ spans, g.Derives id spans := by
  cases n with
  | terminal s => exact ⟨[s], .terminal hn⟩
  | and s children =>
    obtain ⟨spans, hspans⟩ := exists_derivesEach hsources
    exact ⟨spans, .and hn hspans⟩
  | or s alternatives =>
    obtain ⟨alternative, hmem⟩ := List.exists_mem_of_ne_nil _ h.1
    obtain ⟨spans, hspans⟩ := hsources alternative hmem
    exact ⟨spans, .or hn hmem hspans⟩

/-- One of several proper tiles is narrower than the stretch that they fill. -/
theorem Tiles.widthAt_lt (h : g.Tiles hi lo ids) (htwo : 2 ≤ ids.length)
    (hproper : ∀ id n, g.node? id = some n → n.span.Proper) (hid : id ∈ ids) :
    g.widthAt id < hi - lo := by
  have hsum := h.sum_width fun id _ => hproper id
  rw [((List.perm_cons_erase hid).map g.widthAt).sum_eq, List.map_cons, List.sum_cons] at hsum
  obtain ⟨other, hother⟩ : ∃ other, other ∈ ids.erase id := by
    apply List.exists_mem_of_length_pos
    rw [List.length_erase_of_mem hid]
    omega
  have hle : g.widthAt other ≤ ((ids.erase id).map g.widthAt).sum :=
    List.le_sum_of_mem (List.mem_map_of_mem hother)
  have hpos : 0 < g.widthAt other := by
    obtain ⟨n, hn⟩ := h.exists_node other (List.mem_of_mem_erase hother)
    rw [widthAt_of_node? hn]
    exact Nat.sub_pos_of_lt (hproper other n hn)
  omega

/-- Twice the width of the node's span, and one more for an or-node. -/
def heightAt (g : Graph) (id : NodeId) : Nat :=
  2 * g.widthAt id + if (g.node? id).any Node.isOr then 1 else 0

/-- Where no span is empty, references lead down. -/
theorem Keeps.heightAt_lt (h : g.Keeps n) (hn : g.node? id = some n)
    (hproper : ∀ id n, g.node? id = some n → n.span.Proper) :
    ∀ source ∈ n.sources, g.heightAt source < g.heightAt id := by
  intro source hsource
  cases n with
  | terminal s => simp [Node.sources] at hsource
  | and s children =>
    have hlt : g.widthAt source < s.hi - s.lo := h.2.widthAt_lt h.1 hproper hsource
    rw [heightAt, heightAt, widthAt_of_node? hn, Node.span, Span.width]
    split <;> omega
  | or s alternatives =>
    obtain ⟨m, hm, hleaf, hspan⟩ := h.2 source hsource
    have hor : (Node.or s alternatives).isOr = true := rfl
    rw [heightAt, heightAt, widthAt_of_node? hn, widthAt_of_node? hm, hspan, hn, hm]
    simp [hleaf, hor, Node.span]

/-- The node covers a proper span, derives something, and derives only sequences of leaves that tile
the span. -/
structure Decomposes (g : Graph) (id : NodeId) (s : Span) : Prop where
  proper : s.lo < s.hi
  exists_derives : ∃ spans, g.Derives id spans
  tiles : ∀ spans, g.Derives id spans → g.bounds.Tiles s.hi s.lo spans

namespace Proper

variable (h : g.Proper)
include h

theorem decomposes_of_reaches (hr : Reaches g.nodes g.root id) :
    ∃ n, g.node? id = some n ∧ g.Decomposes id n.span := by
  obtain ⟨order, -, hl⟩ := h.exists_order
  have hid := (hl.mem_iff id).mpr hr
  have hderives : ∀ id ∈ order, ∃ spans, g.Derives id spans := by
    refine hl.settled.induct fun id hid ih => ?_
    have hlt := hl.settled.lt_size id hid
    have hn : g.node? id = some g.nodes[id] := Array.getElem?_eq_getElem hlt
    apply (h.keeps hn).exists_derives hn
    intro source hsource
    exact (ih source (refersTo_iff.mpr ⟨_, hn, hsource⟩)).2
  have hlt := hl.settled.lt_size id hid
  have hn : g.node? id = some g.nodes[id] := Array.getElem?_eq_getElem hlt
  refine ⟨_, hn, h.proper_of_mem hl id hid _ hn, hderives id hid, ?_⟩
  intro spans hspans
  exact hspans.tiles (fun _ _ => h.keeps) h.minSize_pos hn

variable (hproper : ∀ id n, g.node? id = some n → n.span.Proper)
include hproper

theorem exists_derives_of_node (hn : g.node? id = some n) : ∃ spans, g.Derives id spans := by
  generalize hheight : g.heightAt id = height
  induction height using Nat.strongRecOn generalizing id n with
  | _ height ih =>
    apply (h.keeps hn).exists_derives hn
    intro source hsource
    obtain ⟨m, hm⟩ := (h.keeps hn).exists_source source hsource
    have hlt := (h.keeps hn).heightAt_lt hn hproper source hsource
    exact ih _ (hheight ▸ hlt) hm rfl

theorem acyclic (id : NodeId) : ¬ TransGen (RefersTo g.nodes) id id := by
  have hstep : ∀ id source, RefersTo g.nodes id source → g.heightAt source < g.heightAt id := by
    intro id source href
    obtain ⟨n, hn, hsource⟩ := refersTo_iff.mp href
    exact (h.keeps hn).heightAt_lt hn hproper source hsource
  intro hcycle
  exact Nat.lt_irrefl _ (rank_lt_of_transGen hstep hcycle)

end Proper

/-- Acceptance is sound: a node within reach of the root has derivations, and they are tilings of
its span by leaves; if no stored node covers an empty or inverted span, that is so of every stored
node, and no node refers to itself over any number of others. -/
theorem validate_sound (g : Graph) (hvalid : g.validate = .ok ()) (hmin : 1 ≤ g.bounds.minSize) :
    (∀ id, Reaches g.nodes g.root id → ∃ n, g.node? id = some n ∧ g.Decomposes id n.span) ∧
    (∃ n, g.node? g.root = some n ∧ n.span = ⟨0, g.bounds.dim⟩) ∧
    ((∀ id n, g.node? id = some n → n.span.lo < n.span.hi) →
      (∀ id n, g.node? id = some n → g.Decomposes id n.span) ∧
      ∀ id, ¬ TransGen (RefersTo g.nodes) id id) := by
  have hg : g.Proper := ⟨hvalid, hmin⟩
  refine ⟨fun id => hg.decomposes_of_reaches, hg.exists_root, ?_⟩
  intro hproper
  refine ⟨?_, hg.acyclic hproper⟩
  intro id n hn
  refine ⟨hproper id n hn, hg.exists_derives_of_node hproper hn, ?_⟩
  intro spans hspans
  exact hspans.tiles (fun _ _ => hg.keeps) hmin hn

/-- Two leaves in a row; a choice over the second one is out of reach and lists it twice. -/
def outOfReach : Graph where
  nodes := #[.terminal ⟨0, 1⟩, .terminal ⟨1, 3⟩, .and ⟨0, 3⟩ [0, 1], .or ⟨1, 3⟩ [1, 1]]
  root := 2
  bounds := { dim := 3, maxSize := 2 }

theorem validate_sound_outOfReach : outOfReach.validate = .ok () ∧
    outOfReach.Decomposes 2 ⟨0, 3⟩ ∧ outOfReach.Decomposes 3 ⟨1, 3⟩ ∧
    ¬ TransGen (RefersTo outOfReach.nodes) 3 3 := by
  have hvalid : outOfReach.validate = .ok () := by decide +kernel
  have hall : ∀ n ∈ outOfReach.nodes, n.span.lo < n.span.hi := by decide
  have hproper : ∀ id n, outOfReach.node? id = some n → n.span.lo < n.span.hi :=
    fun id n hn => hall n (Array.mem_of_getElem? hn)
  obtain ⟨hreached, -, hstored⟩ := validate_sound outOfReach hvalid (by decide)
  obtain ⟨n, hn, hroot⟩ := hreached 2 .refl
  obtain ⟨hdecomposes, hacyclic⟩ := hstored hproper
  cases hn
  exact ⟨hvalid, hroot, hdecomposes 3 _ rfl, hacyclic 3⟩

end Graph
end AndOrFlow
