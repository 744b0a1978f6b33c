import AndOrFlow.Proofs.Listing
import AndOrFlow.Proofs.Tilable
import AndOrFlow.Store

/-!
# Nodes by what they stand for

The number of a node depends on the order in which nodes are stored. An item names a node without
any number: the leaf of a span, its join at a cut, or the choice between its alternatives. The items
that a span gives rise to are a matter of the size bounds alone, and `Item.Depicts` says that a
stored node is the one an item names, given what the other numbers stand for.
-/
namespace AndOrFlow

inductive Item where
  | leaf (s : Span)
  | join (s : Span) (k : Nat)
  | choice (s : Span)
  deriving DecidableEq

namespace Item

def span : Item → Span
  | leaf s | join s _ | choice s => s

def kind : Item → Kind
  | leaf _ => .terminal
  | join _ _ => .and
  | choice _ => .or

end Item

namespace Bounds

def SplitsAt (b : Bounds) (s : Span) (k : Nat) : Prop :=
  b.Tilable (k - s.lo) ∧ b.Tilable (s.hi - k)

instance (b : Bounds) (s : Span) (k : Nat) : Decidable (b.SplitsAt s k) :=
  inferInstanceAs (Decidable (_ ∧ _))

def leafOf (b : Bounds) (s : Span) : List Item := if b.Admits s.width then [.leaf s] else []

/-- The leaf of a span, if it may be one, and its joins from left to right. -/
def alternatives (b : Bounds) (s : Span) : List Item :=
  b.leafOf s ++ (s.cuts.filter (b.SplitsAt s)).map (.join s)

def joinOf (b : Bounds) (s : Span) (k : Nat) : Option Item :=
  if b.SplitsAt s k then some (.join s k) else none

/-- A span of length one is put under a choice of its own. -/
def WrapsUnit (b : Bounds) (s : Span) : Prop := s.width = 1 ∧ b.bareUnits = false

instance (b : Bounds) (s : Span) : Decidable (b.WrapsUnit s) := inferInstanceAs (Decidable (_ ∧ _))

/-- The item that stands for all decompositions of a span. -/
def resolution (b : Bounds) (s : Span) : Option Item :=
  match b.alternatives s with
  | [] => none
  | [only] => if b.WrapsUnit s then some (.choice s) else some only
  | _ => some (.choice s)

variable {b : Bounds} {s : Span} {x : Item}

theorem alternatives_eq (b : Bounds) (s : Span) :
    b.alternatives s = b.leafOf s ++ s.cuts.filterMap (b.joinOf s) := by
  rw [alternatives, ← List.filterMap_eq_map, List.filterMap_filter]
  simp only [decide_eq_true_eq]
  rfl

theorem joinOf_of_splitsAt {k : Nat} (h : b.SplitsAt s k) :
    b.joinOf s k = some (.join s k) := if_pos h

theorem joinOf_of_not_splitsAt {k : Nat} (h : ¬ b.SplitsAt s k) : b.joinOf s k = none := if_neg h

theorem mem_leafOf : x ∈ b.leafOf s ↔ x = .leaf s ∧ b.Admits s.width := by
  unfold leafOf
  split <;> simp_all

theorem leaf_mem_alternatives : .leaf s ∈ b.alternatives s ↔ b.Admits s.width := by
  simp [alternatives, mem_leafOf]

theorem join_mem_alternatives {k : Nat} :
    .join s k ∈ b.alternatives s ↔ (s.lo < k ∧ k < s.hi) ∧ b.SplitsAt s k := by
  simp [alternatives, mem_leafOf, Span.mem_cuts]

theorem mem_alternatives : x ∈ b.alternatives s ↔
    (x = .leaf s ∧ b.Admits s.width) ∨
      ∃ k, x = .join s k ∧ (s.lo < k ∧ k < s.hi) ∧ b.SplitsAt s k := by
  simp only [alternatives, List.mem_append, mem_leafOf, List.mem_map, List.mem_filter,
    decide_eq_true_eq, Span.mem_cuts]
  constructor
  · rintro (h | ⟨k, hk, rfl⟩)
    · exact Or.inl h
    · exact Or.inr ⟨k, rfl, hk⟩
  · rintro (h | ⟨k, rfl, hk⟩)
    · exact Or.inl h
    · exact Or.inr ⟨k, hk, rfl⟩

theorem span_of_mem_alternatives (h : x ∈ b.alternatives s) : x.span = s := by
  rcases mem_alternatives.mp h with ⟨rfl, -⟩ | ⟨k, rfl, -⟩
  · rfl
  · rfl

theorem nodup_alternatives (b : Bounds) (s : Span) : (b.alternatives s).Nodup := by
  have hcuts : s.cuts.Nodup := List.nodup_range'
  have hjoins : ((s.cuts.filter (b.SplitsAt s)).map (Item.join s)).Nodup :=
    List.Nodup.map (fun k l h => (Item.join.inj h).2) (hcuts.filter _)
  have hleaf : (b.leafOf s).Nodup := by
    unfold leafOf
    split <;> simp
  refine List.Nodup.append hleaf hjoins ?_
  intro x hx hy
  obtain ⟨rfl, -⟩ := mem_leafOf.mp hx
  simp at hy

/-- A span has an alternative exactly when its length can be filled. -/
theorem alternatives_eq_nil_iff (hs : s.Proper) : b.alternatives s = [] ↔ ¬ b.Tilable s.width := by
  have hpos : 0 < s.width := Nat.sub_pos_of_lt hs
  rw [tilable_iff hpos, List.eq_nil_iff_forall_not_mem]
  constructor
  · rintro h (hleaf | ⟨k, hk, hkw, hleft, hright⟩)
    · exact h _ (leaf_mem_alternatives.mpr hleaf)
    · simp only [Span.width] at hkw hright
      refine h (.join s (s.lo + k)) (join_mem_alternatives.mpr ⟨by omega, ?_, ?_⟩)
      · rwa [Nat.add_sub_cancel_left]
      · rwa [← Nat.sub_sub]
  · intro h x hx
    rcases mem_alternatives.mp hx with ⟨-, hleaf⟩ | ⟨k, -, hk, hleft, hright⟩
    · exact h (Or.inl hleaf)
    · refine h (Or.inr ⟨k - s.lo, by omega, ?_, hleft, ?_⟩)
      · simp only [Span.width]
        omega
      · have : s.width - (k - s.lo) = s.hi - k := by
          simp only [Span.width]
          omega
        rwa [this]

theorem resolution_eq_none_iff : b.resolution s = none ↔ b.alternatives s = [] := by
  unfold resolution
  split
  · simp_all
  · split <;> simp_all
  · rename_i h _
    simp only [reduceCtorEq, false_iff]
    exact h

theorem exists_resolution (hs : s.Proper) (h : b.Tilable s.width) : ∃ x, b.resolution s = some x :=
  Option.ne_none_iff_exists'.mp fun hn =>
    (alternatives_eq_nil_iff hs).mp (resolution_eq_none_iff.mp hn) h

theorem tilable_of_resolution (hs : s.Proper) (h : b.resolution s = some x) :
    b.Tilable s.width := by
  by_contra hn
  rw [resolution_eq_none_iff.mpr ((alternatives_eq_nil_iff hs).mpr hn)] at h
  cases h

/-- A span stands for its only alternative or for the choice between all. -/
theorem resolution_eq_some_iff : b.resolution s = some x ↔
    (x = .choice s ∧ (2 ≤ (b.alternatives s).length ∨
      (b.WrapsUnit s ∧ b.alternatives s ≠ []))) ∨
      (b.alternatives s = [x] ∧ ¬ b.WrapsUnit s) := by
  unfold resolution
  split
  · simp_all
  · rename_i only heq
    by_cases hw : b.WrapsUnit s
    · simp [hw, heq, eq_comm]
    · simp [hw, heq]
  · rename_i hnil hone
    have hlen : 2 ≤ (b.alternatives s).length := by
      match h : b.alternatives s with
      | [] => exact absurd h hnil
      | [y] => exact absurd h (hone y)
      | _ :: _ :: _ => simp
    have hne : b.alternatives s ≠ [x] := fun h => by simp [h] at hlen
    constructor
    · intro h
      exact Or.inl ⟨(Option.some.inj h).symm, Or.inl hlen⟩
    · rintro (⟨rfl, -⟩ | ⟨h, -⟩)
      · rfl
      · exact absurd h hne

theorem span_of_resolution (h : b.resolution s = some x) : x.span = s := by
  rcases resolution_eq_some_iff.mp h with ⟨rfl, -⟩ | ⟨hone, -⟩
  · rfl
  · exact span_of_mem_alternatives (b := b) (by simp [hone])

end Bounds

namespace Item
open Bounds
variable {b : Bounds} {s : Span} {k : Nat} {x y : Item} {items : List Item} {m n : Node}

def sources (b : Bounds) : Item → List Item
  | leaf _ => []
  | join s k => (b.resolution ⟨s.lo, k⟩).toList ++ (b.resolution ⟨k, s.hi⟩).toList
  | choice s => b.alternatives s

/-- The bounds give rise to the item. -/
def Legit (b : Bounds) : Item → Prop
  | leaf s => b.Admits s.width
  | join s k => (s.lo < k ∧ k < s.hi) ∧ b.SplitsAt s k
  | choice s => 2 ≤ (b.alternatives s).length ∨ (b.WrapsUnit s ∧ b.alternatives s ≠ [])

theorem legit_of_mem_alternatives (h : x ∈ b.alternatives s) : x.Legit b := by
  rcases mem_alternatives.mp h with ⟨rfl, hleaf⟩ | ⟨k, rfl, hjoin⟩
  · exact hleaf
  · exact hjoin

theorem legit_of_resolution (h : b.resolution s = some x) : x.Legit b := by
  rcases resolution_eq_some_iff.mp h with ⟨rfl, hchoice⟩ | ⟨hone, -⟩
  · exact hchoice
  · exact legit_of_mem_alternatives (s := s) (by simp [hone])

theorem legit_of_mem_sources (h : x ∈ y.sources b) : x.Legit b := by
  cases y with
  | leaf s => simp [sources] at h
  | join s k =>
    simp only [sources, List.mem_append, Option.mem_toList] at h
    rcases h with h | h
    · exact legit_of_resolution h
    · exact legit_of_resolution h
  | choice s => exact legit_of_mem_alternatives h

theorem exists_sources_join (h : (join s k).Legit b) :
    ∃ left right, b.resolution ⟨s.lo, k⟩ = some left ∧ b.resolution ⟨k, s.hi⟩ = some right ∧
      (join s k).sources b = [left, right] := by
  obtain ⟨⟨hlo, hhi⟩, hleft, hright⟩ := h
  obtain ⟨left, hl⟩ := exists_resolution (s := ⟨s.lo, k⟩) hlo hleft
  obtain ⟨right, hr⟩ := exists_resolution (s := ⟨k, s.hi⟩) hhi hright
  exact ⟨left, right, hl, hr, by simp [sources, hl, hr]⟩

theorem alternatives_ne_nil (h : (choice s).Legit b) : b.alternatives s ≠ [] := by
  rcases h with h | ⟨-, h⟩
  · intro hnil
    simp [hnil] at h
  · exact h

/-- The node has the kind, the span and the sources of the item, where `items` lists what every
number stands for. -/
structure Depicts (b : Bounds) (items : List Item) (x : Item) (n : Node) : Prop where
  kind : n.kind = x.kind
  span : n.span = x.span
  sources : n.sources.map (fun id => items[id]?) = (x.sources b).map some

theorem Depicts.of_extends {more : List Item} (hm : items <+: more) (h : Depicts b items x n) :
    Depicts b more x n :=
  ⟨h.kind, h.span, Listing.map_getElem?_of_extends hm h.sources⟩

theorem Depicts.mem_sources {id : NodeId} (h : Depicts b items x n) (hid : id ∈ n.sources) :
    ∃ y ∈ x.sources b, items[id]? = some y :=
  Listing.exists_of_mem_positions h.sources hid

theorem Depicts.node_eq (hitems : items.Nodup) (hm : Depicts b items x m)
    (hn : Depicts b items x n) : m = n :=
  Node.eq_of_parts (hm.kind.trans hn.kind.symm) (hm.span.trans hn.span.symm)
    (Listing.positions_inj hitems hm.sources hn.sources)

theorem Depicts.sources_eq (hm : Depicts b items x m) (hn : Depicts b items y n)
    (h : m.sources = n.sources) : x.sources b = y.sources b := by
  have hmap : (x.sources b).map some = (y.sources b).map some := by
    rw [← hm.sources, ← hn.sources, h]
  exact List.map_injective_iff.mpr (Option.some_injective _) hmap

theorem kind_eq_of_key_eq (h : m.key = n.key) : m.kind = n.kind := by
  cases m <;> cases n <;> simp_all [Node.key, Node.kind]

theorem span_eq_of_key_eq (hm : m.kind = .terminal) (h : m.key = n.key) : m.span = n.span := by
  cases m <;> cases n <;> simp_all [Node.key, Node.kind, Node.span]

theorem sources_eq_of_key_eq (hm : m.kind = .and) (h : m.key = n.key) :
    m.sources = n.sources := by
  cases m <;> cases n <;> simp_all [Node.key, Node.kind, Node.sources]

theorem mem_sources_of_key_eq {id : NodeId} (hm : m.kind = .or) (h : m.key = n.key)
    (hid : id ∈ m.sources) : id ∈ n.sources := by
  cases m with
  | terminal | and => cases hm
  | or _ ids =>
    cases n with
    | terminal | and => cases h
    | or _ others =>
      have hsort := Key.or.inj h
      exact Sorting.mem_sort.mp (hsort ▸ Sorting.mem_sort.mpr hid)

/-- Of two choices, one alternative in common is enough to be over the same span. -/
theorem choice_eq_of_key_eq {t : Span} (hx : (choice s).Legit b)
    (hm : Depicts b items (choice s) m) (hn : Depicts b items (choice t) n)
    (hkey : m.key = n.key) : s = t := by
  obtain ⟨a, ha⟩ := List.exists_mem_of_ne_nil _ (alternatives_ne_nil hx)
  obtain ⟨id, hid, hitem⟩ := Listing.exists_of_mem_entries hm.sources ha
  obtain ⟨c, hc, hitem'⟩ := hn.mem_sources (mem_sources_of_key_eq hm.kind hkey hid)
  obtain rfl : a = c := Option.some.inj (hitem.symm.trans hitem')
  exact (span_of_mem_alternatives ha).symm.trans (span_of_mem_alternatives hc)

/-- Keys hold no spans but those of terminals, and yet nodes of the same key stand for the same
item: the span is that of the sources put together. -/
theorem Depicts.item_eq (hx : x.Legit b) (hy : y.Legit b) (hm : Depicts b items x m)
    (hn : Depicts b items y n) (hkey : m.key = n.key) : x = y := by
  have hkind : x.kind = y.kind := by
    rw [← hm.kind, ← hn.kind, kind_eq_of_key_eq hkey]
  cases x with
  | leaf s =>
    cases y with
    | leaf t =>
      have hspan := span_eq_of_key_eq hm.kind hkey
      rw [hm.span, hn.span] at hspan
      exact congrArg leaf hspan
    | join | choice => cases hkind
  | join s k =>
    cases y with
    | join t j =>
      have heq := hm.sources_eq hn (sources_eq_of_key_eq hm.kind hkey)
      obtain ⟨left, right, hleft, hright, hs⟩ := exists_sources_join hx
      obtain ⟨left', right', hleft', hright', ht⟩ := exists_sources_join hy
      rw [hs, ht] at heq
      obtain ⟨rfl, rfl⟩ : left = left' ∧ right = right' := by simpa using heq
      have hl := (span_of_resolution hleft).symm.trans (span_of_resolution hleft')
      have hr := (span_of_resolution hright).symm.trans (span_of_resolution hright')
      simp only [Span.mk.injEq] at hl hr
      rw [join.injEq, Span.ext_iff]
      exact ⟨⟨hl.1, hr.2⟩, hl.2⟩
    | leaf | choice => cases hkind
  | choice s =>
    cases y with
    | choice t => exact congrArg choice (choice_eq_of_key_eq hx hm hn hkey)
    | leaf | join => cases hkind

end Item
end AndOrFlow
