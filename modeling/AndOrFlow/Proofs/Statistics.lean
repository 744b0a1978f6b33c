import AndOrFlow.Proofs.Content
import Mathlib.Algebra.BigOperators.Intervals
import Mathlib.Algebra.BigOperators.Ring.Finset
import Mathlib.Algebra.Order.Interval.Finset.SuccPred
import Mathlib.Data.Nat.SuccPred

/-!
# How many nodes and references a built graph has

The nodes are counted span by span: each span that occurs has its alternatives and, where there is
one, the choice between them. Where a leaf may have one position, every span of the domain occurs
and what there is over it is a matter of its width, so that the counts are sums over all widths,
each taken as often as there are spans of it.
-/
namespace AndOrFlow
open Bounds Finset

variable {b : Bounds} {g : Graph} {items : List Item} {spans : List Span} {s : Span} {x : Item}
  {n : Nat}

namespace Bounds

instance (b : Bounds) (s : Span) : Decidable ((Item.choice s).Legit b) :=
  inferInstanceAs (Decidable (_ ∨ _))

def choiceOf (b : Bounds) (s : Span) : List Item :=
  if (Item.choice s).Legit b then [.choice s] else []

/-- The cuts of a span that leave two parts that can be filled. -/
def cutsOf (b : Bounds) (s : Span) : List Nat := s.cuts.filter (b.SplitsAt s)

/-- All that the bounds give rise to over a span. -/
def itemsOf (b : Bounds) (s : Span) : List Item := b.alternatives s ++ b.choiceOf s

theorem alternatives_eq_append (b : Bounds) (s : Span) :
    b.alternatives s = b.leafOf s ++ (b.cutsOf s).map (.join s) := rfl

theorem mem_choiceOf : x ∈ b.choiceOf s ↔ x = .choice s ∧ x.Legit b := by
  unfold choiceOf
  split <;> simp_all

theorem mem_itemsOf : x ∈ b.itemsOf s ↔ x.span = s ∧ x.Legit b := by
  rw [itemsOf, List.mem_append, mem_choiceOf]
  constructor
  · rintro (hmem | ⟨rfl, hlegit⟩)
    · exact ⟨span_of_mem_alternatives hmem, Item.legit_of_mem_alternatives hmem⟩
    · exact ⟨rfl, hlegit⟩
  · rintro ⟨rfl, hlegit⟩
    cases x with
    | leaf s => exact Or.inl (leaf_mem_alternatives.mpr hlegit)
    | join s k => exact Or.inl (join_mem_alternatives.mpr hlegit)
    | choice s => exact Or.inr ⟨rfl, hlegit⟩

theorem nodup_itemsOf (b : Bounds) (s : Span) : (b.itemsOf s).Nodup := by
  have hchoice : (b.choiceOf s).Nodup := by
    unfold choiceOf
    split <;> simp
  refine (nodup_alternatives b s).append hchoice ?_
  intro x hx hy
  obtain ⟨rfl, -⟩ := mem_choiceOf.mp hy
  simp [mem_alternatives] at hx

theorem perm_flatMap_itemsOf (hitems : items.Nodup) (hmem : ∀ x, x ∈ items ↔ x.Present b)
    (hspans : spans.Nodup) (hoccurs : ∀ s, s ∈ spans ↔ b.Occurs s) :
    items.Perm (spans.flatMap b.itemsOf) := by
  have hnodup : (spans.flatMap b.itemsOf).Nodup := by
    refine List.nodup_flatMap.mpr ⟨fun s _ => nodup_itemsOf b s, hspans.imp fun hne x hs ht => ?_⟩
    exact hne ((mem_itemsOf.mp hs).1.symm.trans (mem_itemsOf.mp ht).1)
  -- Both lists are free of repetitions, so it is enough to compare their members.
  rw [List.perm_ext_iff_of_nodup hitems hnodup]
  intro x
  simp [hmem, Item.present_iff, mem_itemsOf, hoccurs]

theorem countP_of_kind_eq {kind : Kind} (h : ∀ x ∈ items, x.kind = kind) (k : Kind) :
    items.countP (fun x => x.kind = k) = if kind = k then items.length else 0 := by
  split
  · rename_i heq
    exact List.countP_eq_length.mpr fun x hx => decide_eq_true ((h x hx).trans heq)
  · rename_i hne
    refine List.countP_eq_zero.mpr fun x hx heq => hne ?_
    exact (h x hx).symm.trans (of_decide_eq_true heq)

theorem countP_itemsOf (b : Bounds) (s : Span) (k : Kind) :
    (b.itemsOf s).countP (fun x => x.kind = k) = match k with
      | .terminal => (b.leafOf s).length
      | .and => (b.cutsOf s).length
      | .or => (b.choiceOf s).length := by
  have hleaf : ∀ x ∈ b.leafOf s, x.kind = .terminal := by
    intro x hx
    rw [(mem_leafOf.mp hx).1, Item.kind]
  have hjoin : ∀ x ∈ (b.cutsOf s).map (Item.join s), x.kind = .and := by
    intro x hx
    obtain ⟨k, -, rfl⟩ := List.mem_map.mp hx
    rfl
  have hchoice : ∀ x ∈ b.choiceOf s, x.kind = .or := by
    intro x hx
    rw [(mem_choiceOf.mp hx).1, Item.kind]
  rw [itemsOf, alternatives_eq_append, List.countP_append, List.countP_append,
    countP_of_kind_eq hleaf, countP_of_kind_eq hjoin, countP_of_kind_eq hchoice]
  cases k with
  | terminal | and | or => simp

/-- A join has two references, and a choice one to each alternative. -/
theorem length_flatMap_sources (b : Bounds) (s : Span) :
    ((b.itemsOf s).flatMap (Item.sources b)).length =
      2 * (b.cutsOf s).length + (b.choiceOf s).length * (b.alternatives s).length := by
  have hleaf : (b.leafOf s).flatMap (Item.sources b) = [] := by
    unfold leafOf
    split <;> rfl
  have hjoin : ∀ k ∈ b.cutsOf s, ((Item.join s k).sources b).length = 2 := by
    intro k hk
    have hmem : Item.join s k ∈ b.alternatives s := by
      rw [alternatives_eq_append]
      exact List.mem_append_right _ (List.mem_map_of_mem hk)
    obtain ⟨left, right, -, -, heq⟩ :=
      Item.exists_sources_join (Item.legit_of_mem_alternatives hmem)
    rw [heq]
    rfl
  have hjoins : (((b.cutsOf s).map (Item.join s)).flatMap (Item.sources b)).length =
      2 * (b.cutsOf s).length := by
    rw [List.flatMap_map, List.length_flatMap, List.map_eq_replicate_iff.mpr hjoin,
      List.sum_replicate_nat, Nat.mul_comm]
  have hchoice : ((b.choiceOf s).flatMap (Item.sources b)).length =
      (b.choiceOf s).length * (b.alternatives s).length := by
    unfold choiceOf
    split <;> simp [Item.sources]
  rw [itemsOf, List.flatMap_append, List.length_append, hchoice]
  rw [alternatives_eq_append, List.flatMap_append, hleaf, List.nil_append, hjoins]

end Bounds

namespace Graph

theorem Shows.map_nodes {β : Type} {φ : Node → β} {ψ : Item → β} (h : g.Shows b items)
    (heq : ∀ x n, x.Depicts b items n → φ n = ψ x) : g.nodes.toList.map φ = items.map ψ := by
  refine List.ext_getElem? fun id => ?_
  rw [List.getElem?_map, List.getElem?_map, Array.getElem?_toList]
  cases hn : g.nodes[id]? with
  | none =>
    have hid : items.length ≤ id := by
      rw [h.length_eq]
      exact Array.getElem?_eq_none_iff.mp hn
    rw [List.getElem?_eq_none hid]
    rfl
  | some n =>
    obtain ⟨x, hx, hdepicts⟩ := h.exists_item hn
    rw [hx, Option.map_some, Option.map_some, heq x n hdepicts]

theorem Shows.countKind_eq (h : g.Shows b items) (k : Kind) :
    g.countKind k = items.countP (fun x => x.kind = k) := by
  have hkinds := h.map_nodes (fun x n hdepicts => hdepicts.kind)
  have hcount := congrArg (List.countP fun kind => kind = k) hkinds
  rw [List.countP_map, List.countP_map] at hcount
  rw [countKind, ← Array.countP_toList]
  exact hcount

theorem Shows.length_edges (h : g.Shows b items) :
    g.stats.edges = (items.flatMap (Item.sources b)).length := by
  have hlengths : g.nodes.toList.map (fun n => n.sources.length) =
      items.map fun x => (x.sources b).length := h.map_nodes fun x n hdepicts => by
    have hlength := congrArg List.length hdepicts.sources
    rwa [List.length_map, List.length_map] at hlength
  rw [stats, List.length_flatMap, List.length_flatMap, hlengths]

/-- What there is over the spans adds up to the counts of the graph. -/
structure CountedBy (b : Bounds) (spans : List Span) (g : Graph) : Prop where
  terminals : g.stats.terminals = (spans.map fun s => (b.leafOf s).length).sum
  ands : g.stats.ands = (spans.map fun s => (b.cutsOf s).length).sum
  ors : g.stats.ors = (spans.map fun s => (b.choiceOf s).length).sum
  edges : g.stats.edges = (spans.map fun s => 2 * (b.cutsOf s).length +
    (b.choiceOf s).length * (b.alternatives s).length).sum

theorem Shows.countedBy (h : g.Shows b items) (hperm : items.Perm (spans.flatMap b.itemsOf)) :
    g.CountedBy b spans := by
  have hkind : ∀ k, g.countKind k =
      (spans.map fun s => (b.itemsOf s).countP fun x => x.kind = k).sum := by
    intro k
    rw [h.countKind_eq, hperm.countP_eq, List.countP_flatMap]
    rfl
  refine ⟨?_, ?_, ?_, ?_⟩
  · simpa only [stats, countP_itemsOf] using hkind .terminal
  · simpa only [stats, countP_itemsOf] using hkind .and
  · simpa only [stats, countP_itemsOf] using hkind .or
  · rw [h.length_edges, (hperm.flatMap_right _).length_eq, List.flatMap_assoc, List.length_flatMap]
    simp only [length_flatMap_sources]

theorem length_eq_countP (nodes : List Node) : nodes.length =
    nodes.countP (fun n => n.kind = .terminal) + nodes.countP (fun n => n.kind = .and) +
      nodes.countP (fun n => n.kind = .or) := by
  induction nodes with
  | nil => rfl
  | cons n nodes ih =>
    cases n with
    | terminal | and | or =>
      simp only [List.length_cons, List.countP_cons, Node.kind, ih, decide_true, reduceCtorEq,
        decide_false, Bool.false_eq_true, if_true, if_false]
      omega

theorem size_eq_total (g : Graph) : g.size = g.stats.total := by
  have hlength := length_eq_countP g.nodes.toList
  simp only [Array.countP_toList] at hlength
  exact hlength

end Graph

/-- The spans up to a position, the narrow ones first. -/
def spansUpTo (n : Nat) : List Span :=
  (List.range' 1 n).flatMap fun w => (List.range (n - w + 1)).map fun lo => ⟨lo, lo + w⟩

theorem mem_spansUpTo : s ∈ spansUpTo n ↔ s.lo < s.hi ∧ s.hi ≤ n := by
  simp only [spansUpTo, List.mem_flatMap, List.mem_range'_1, List.mem_map, List.mem_range]
  constructor
  · rintro ⟨w, hw, lo, hlo, rfl⟩
    dsimp only
    omega
  · intro hs
    refine ⟨s.hi - s.lo, by omega, s.lo, by omega, Span.ext rfl ?_⟩
    dsimp only
    omega

theorem nodup_spansUpTo (n : Nat) : (spansUpTo n).Nodup := by
  refine List.nodup_flatMap.mpr ⟨fun w _ => ?_, ?_⟩
  · exact List.nodup_range.map fun lo lo' h => congrArg Span.lo h
  · refine List.Pairwise.imp (fun {w w'} hne s hs hs' => hne ?_) List.nodup_range'
    obtain ⟨lo, -, rfl⟩ := List.mem_map.mp hs
    obtain ⟨lo', -, heq⟩ := List.mem_map.mp hs'
    simp only [Span.mk.injEq] at heq
    omega

theorem sum_spansUpTo (n : Nat) (f : Nat → Nat) :
    ((spansUpTo n).map fun s => f s.width).sum = ∑ w ∈ Icc 1 n, (n - w + 1) * f w := by
  have hwidth : ∀ w, ((List.range (n - w + 1)).map fun lo => f (⟨lo, lo + w⟩ : Span).width).sum =
      (n - w + 1) * f w := by
    intro w
    simp [Span.width]
  rw [Nat.Icc_eq_range', spansUpTo, List.map_flatMap, List.flatMap_def, List.sum_flatten,
    List.map_map]
  simp only [List.map_map, Function.comp_def, hwidth]
  rfl

theorem sum_widths_from (a n : Nat) (f : Nat → Nat) : ∑ w ∈ Icc a n, (n - w + 1) * f w =
    (n + 1 - a) * f a + ∑ w ∈ Icc (a + 1) n, (n - w + 1) * f w := by
  rcases Nat.lt_or_ge n a with hlt | hge
  · rw [Icc_eq_empty_of_lt hlt, Icc_eq_empty_of_lt (Nat.lt_succ_of_lt hlt),
      Nat.sub_eq_zero_of_le hlt, Nat.zero_mul, sum_empty]
    rfl
  · rw [← add_sum_Ioc_eq_sum_Icc hge, Icc_add_one_left_eq_Ioc, Nat.sub_add_comm hge]

/-- There are `n` spans of one position and one fewer of two. -/
theorem sum_widths_eq (n : Nat) (f : Nat → Nat) : ∑ w ∈ Icc 1 n, (n - w + 1) * f w =
    n * f 1 + (n - 1) * f 2 + ∑ w ∈ Icc 3 n, (n - w + 1) * f w := by
  rw [sum_widths_from, sum_widths_from, ← Nat.add_assoc]
  rfl

theorem two_mul_sum_pred (n : Nat) : 2 * ∑ w ∈ Icc 1 n, (w - 1) + n = n ^ 2 := by
  induction n with
  | zero => simp
  | succ n ih =>
    rw [sum_Icc_succ_top (by omega), Nat.mul_add, Nat.add_sub_cancel]
    linarith [ih]

/-- Every cut of every span, counted by the spans. -/
theorem six_mul_sum_cuts (n : Nat) :
    6 * ∑ w ∈ Icc 1 n, (n - w + 1) * (w - 1) + n = n ^ 3 := by
  induction n with
  | zero => simp
  | succ n ih =>
    have hstep : ∑ w ∈ Icc 1 n, (n + 1 - w + 1) * (w - 1) =
        ∑ w ∈ Icc 1 n, (n - w + 1) * (w - 1) + ∑ w ∈ Icc 1 n, (w - 1) := by
      rw [← sum_add_distrib]
      refine sum_congr rfl fun w hw => ?_
      have hsub : n + 1 - w = n - w + 1 := Nat.sub_add_comm (mem_Icc.mp hw).2
      rw [hsub]
      ring
    rw [sum_Icc_succ_top (by omega), hstep, Nat.sub_self, Nat.add_sub_cancel]
    linarith [ih, two_mul_sum_pred n]

namespace Bounds

/-- How many leaves there are over a span of some width, if leaves may have one position. -/
def leavesAt (b : Bounds) (w : Nat) : Nat := if w ≤ b.maxSize then 1 else 0

/-- How many choices there are over a span of some width, if leaves may have one position. -/
def choicesAt (b : Bounds) (w : Nat) : Nat :=
  if 2 ≤ b.leavesAt w + (w - 1) ∨ (w = 1 ∧ b.bareUnits = false) then 1 else 0

theorem choicesAt_one (b : Bounds) : b.choicesAt 1 = if b.bareUnits then 0 else 1 := by
  have hfew : ¬ 2 ≤ b.leavesAt 1 := by
    unfold leavesAt
    split <;> omega
  unfold choicesAt
  simp only [Nat.sub_self, Nat.add_zero, hfew, false_or, true_and]
  cases b.bareUnits with
  | true | false => rfl

theorem choicesAt_two (b : Bounds) : b.choicesAt 2 = if 2 ≤ b.maxSize then 1 else 0 := by
  unfold choicesAt leavesAt
  split <;> simp

theorem choicesAt_of_three_le {w : Nat} (b : Bounds) (hw : 3 ≤ w) : b.choicesAt w = 1 := by
  refine if_pos (Or.inl ?_)
  omega

theorem sum_leavesAt (b : Bounds) (a n : Nat) : ∑ w ∈ Icc a n, (n - w + 1) * b.leavesAt w =
    ∑ w ∈ Icc a (min b.maxSize n), (n - w + 1) := by
  have hwidths : (Icc a n).filter (· ≤ b.maxSize) = Icc a (min b.maxSize n) := by
    ext w
    simp only [mem_filter, mem_Icc]
    omega
  rw [← hwidths, sum_filter]
  refine sum_congr rfl fun w _ => ?_
  rw [leavesAt, mul_ite, Nat.mul_one, Nat.mul_zero]

/-- Spans of one position have a choice if they are not bare, and wider ones if they have more than
one alternative. -/
theorem sum_choicesAt (b : Bounds) (n : Nat) : ∑ w ∈ Icc 1 n, (n - w + 1) * b.choicesAt w =
    ∑ w ∈ Icc 3 n, (n - w + 1) + (if 2 ≤ b.maxSize then n - 1 else 0) +
      (if b.bareUnits then 0 else n) := by
  have hwide : ∑ w ∈ Icc 3 n, (n - w + 1) * b.choicesAt w = ∑ w ∈ Icc 3 n, (n - w + 1) :=
    sum_congr rfl fun w hw => by
      rw [b.choicesAt_of_three_le (mem_Icc.mp hw).1, Nat.mul_one]
  rw [sum_widths_eq, hwide, choicesAt_one, choicesAt_two, mul_ite, mul_ite, Nat.mul_one,
    Nat.mul_zero, Nat.mul_one, Nat.mul_zero]
  omega

theorem sum_alternatives (hmax : 1 ≤ b.maxSize) (n : Nat) :
    ∑ w ∈ Icc 1 n, (n - w + 1) * (b.choicesAt w * (b.leavesAt w + (w - 1))) =
      (if 2 ≤ b.maxSize then ∑ w ∈ Icc 1 n, (n - w + 1) * (w - 1) +
          ∑ w ∈ Icc 2 (min b.maxSize n), (n - w + 1)
        else ∑ w ∈ Icc 1 n, (n - w + 1) * (w - 1) - (n - 1)) +
        (if b.bareUnits then 0 else n) := by
  have hwide : ∑ w ∈ Icc 3 n, (n - w + 1) * (b.choicesAt w * (b.leavesAt w + (w - 1))) =
      ∑ w ∈ Icc 3 n, (n - w + 1) * b.leavesAt w + ∑ w ∈ Icc 3 n, (n - w + 1) * (w - 1) := by
    rw [← sum_add_distrib]
    refine sum_congr rfl fun w hw => ?_
    rw [b.choicesAt_of_three_le (mem_Icc.mp hw).1, Nat.one_mul, Nat.mul_add]
  have hone : b.leavesAt 1 = 1 := if_pos hmax
  have hunits : n * (if b.bareUnits then 0 else 1) = if b.bareUnits then 0 else n := by
    rw [mul_ite, Nat.mul_zero, Nat.mul_one]
  rw [sum_widths_eq, hwide, sum_widths_eq n fun w => w - 1, hone, choicesAt_one, choicesAt_two,
    Nat.sub_self, Nat.add_zero, Nat.mul_one, hunits]
  -- A span of two positions has one cut, and a choice only if it may be a leaf as well.
  by_cases htwo : 2 ≤ b.maxSize
  · have hleaf : b.leavesAt 2 = 1 := if_pos htwo
    have hfrom : ∑ w ∈ Icc 2 (min b.maxSize n), (n - w + 1) =
        (n - 1) * 1 + ∑ w ∈ Icc 3 n, (n - w + 1) * b.leavesAt w := by
      rw [← sum_leavesAt, sum_widths_from, hleaf]
      rfl
    rw [if_pos htwo, if_pos htwo, hfrom, hleaf]
    omega
  · have hnone : ∑ w ∈ Icc 3 n, (n - w + 1) * b.leavesAt w = 0 := by
      rw [sum_leavesAt, Icc_eq_empty_of_lt (by omega), sum_empty]
    rw [if_neg htwo, if_neg htwo, hnone]
    omega

variable (hmin : b.minSize = 1) (hmax : 1 ≤ b.maxSize)
include hmin hmax

theorem tilable_iff_pos : b.Tilable n ↔ 1 ≤ n := by
  constructor
  · exact Tilable.pos hmin.ge
  · intro hn
    refine ⟨n, hn, ?_, Nat.le_mul_of_pos_right n hmax⟩
    rw [hmin, Nat.mul_one]

theorem occurs_iff : b.Occurs s ↔ s.lo < s.hi ∧ s.hi ≤ b.dim := by
  have htilable : ∀ n, b.Tilable n ↔ 1 ≤ n := fun n => tilable_iff_pos hmin hmax
  constructor
  · exact fun h => ⟨h.proper, h.le_dim⟩
  · rintro ⟨hproper, hdim⟩
    refine ⟨hproper, hdim, ?_, ?_, ?_⟩
    · exact (Nat.eq_zero_or_pos s.lo).imp_right (htilable _).mpr
    · exact (htilable _).mpr (Nat.sub_pos_of_lt hproper)
    · exact (Nat.eq_zero_or_pos (b.dim - s.hi)).imp_right (htilable _).mpr

theorem length_cutsOf (s : Span) : (b.cutsOf s).length = s.width - 1 := by
  have hsplits : ∀ k ∈ s.cuts, decide (b.SplitsAt s k) = true := by
    intro k hk
    obtain ⟨hlo, hhi⟩ := Span.mem_cuts.mp hk
    rw [decide_eq_true_eq, SplitsAt, tilable_iff_pos hmin hmax, tilable_iff_pos hmin hmax]
    omega
  rw [cutsOf, List.filter_eq_self.mpr hsplits, Span.cuts, List.length_range']

omit hmax in
theorem length_leafOf (hs : s.Proper) : (b.leafOf s).length = b.leavesAt s.width := by
  have hpos : 1 ≤ s.width := Nat.sub_pos_of_lt hs
  have hadmits : b.Admits s.width ↔ s.width ≤ b.maxSize := by
    rw [Admits, hmin, and_iff_right hpos]
  unfold leafOf leavesAt
  simp only [hadmits]
  split <;> rfl

theorem length_alternatives (hs : s.Proper) :
    (b.alternatives s).length = b.leavesAt s.width + (s.width - 1) := by
  rw [alternatives_eq_append, List.length_append, List.length_map, length_leafOf hmin hs,
    length_cutsOf hmin hmax]

theorem length_choiceOf (hs : s.Proper) : (b.choiceOf s).length = b.choicesAt s.width := by
  have hne : b.alternatives s ≠ [] := by
    rw [Ne, alternatives_eq_nil_iff hs, tilable_iff_pos hmin hmax, not_not]
    exact Nat.sub_pos_of_lt hs
  have hlegit : (Item.choice s).Legit b ↔
      2 ≤ b.leavesAt s.width + (s.width - 1) ∨ (s.width = 1 ∧ b.bareUnits = false) := by
    rw [Item.Legit, and_iff_left hne, length_alternatives hmin hmax hs]
    rfl
  unfold choiceOf choicesAt
  simp only [hlegit]
  split <;> rfl

end Bounds

namespace Graph

/-- The counts in closed form, for leaves of any length up to `maxSize`. -/
structure UnitCounts (b : Bounds) (g : Graph) : Prop where
  terminals : g.stats.terminals = ∑ w ∈ Icc 1 (min b.maxSize b.dim), (b.dim - w + 1)
  ands : g.stats.ands = (b.dim ^ 3 - b.dim) / 6
  ors : g.stats.ors = ∑ w ∈ Icc 3 b.dim, (b.dim - w + 1) +
    (if 2 ≤ b.maxSize then b.dim - 1 else 0) + (if b.bareUnits then 0 else b.dim)
  edges : g.stats.edges = 2 * g.stats.ands +
    (if 2 ≤ b.maxSize then
        g.stats.ands + ∑ w ∈ Icc 2 (min b.maxSize b.dim), (b.dim - w + 1)
      else g.stats.ands - (b.dim - 1)) + (if b.bareUnits then 0 else b.dim)
  size_eq : g.size = g.stats.terminals + g.stats.ands + g.stats.ors

theorem CountedBy.unitCounts (h : g.CountedBy b (spansUpTo b.dim)) (hmin : b.minSize = 1)
    (hmax : 1 ≤ b.maxSize) : g.UnitCounts b := by
  have hsum : ∀ {φ : Span → Nat} {f : Nat → Nat}, (∀ s, s.Proper → φ s = f s.width) →
      ((spansUpTo b.dim).map φ).sum = ∑ w ∈ Icc 1 b.dim, (b.dim - w + 1) * f w := by
    intro φ f heq
    rw [← sum_spansUpTo]
    exact congrArg _ (List.map_congr_left fun s hs => heq s (mem_spansUpTo.mp hs).1)
  have hands : g.stats.ands = ∑ w ∈ Icc 1 b.dim, (b.dim - w + 1) * (w - 1) := by
    rw [h.ands]
    exact hsum fun s _ => length_cutsOf hmin hmax s
  constructor
  · rw [h.terminals, hsum fun s hs => length_leafOf hmin hs, sum_leavesAt]
  · rw [hands, ← six_mul_sum_cuts b.dim, Nat.add_sub_cancel, Nat.mul_div_cancel_left _ (by decide)]
  · rw [h.ors, hsum fun s hs => length_choiceOf hmin hmax hs, sum_choicesAt]
  · have hedges : g.stats.edges = ∑ w ∈ Icc 1 b.dim, (b.dim - w + 1) *
        (2 * (w - 1) + b.choicesAt w * (b.leavesAt w + (w - 1))) := by
      rw [h.edges]
      refine hsum fun s hs => ?_
      rw [length_cutsOf hmin hmax, length_choiceOf hmin hmax hs, length_alternatives hmin hmax hs]
    simp only [Nat.mul_add (_ - _ + 1), Nat.mul_left_comm _ 2, sum_add_distrib] at hedges
    rw [hedges, ← mul_sum, ← hands, sum_alternatives hmax, ← hands, Nat.add_assoc]
  · exact size_eq_total g

/-- Where a leaf may have one position, every domain has a graph, and its counts are known without
building it. -/
theorem build_unitCounts (hmin : b.minSize = 1) (hmax : 1 ≤ b.maxSize) (hdim : 1 ≤ b.dim) :
    ∃ g, build b = .ok g ∧ g.UnitCounts b := by
  have hb : b.defect? = none := defect?_eq_none_iff.mpr (by omega)
  obtain ⟨g, items, hg, hshows, -, hmem⟩ :=
    build_of_tilable hb ((tilable_iff_pos hmin hmax).mpr hdim)
  have hspans : ∀ s, s ∈ spansUpTo b.dim ↔ b.Occurs s := fun s => by
    rw [mem_spansUpTo, occurs_iff hmin hmax]
  have hperm := perm_flatMap_itemsOf hshows.nodup hmem (nodup_spansUpTo b.dim) hspans
  exact ⟨g, hg, (hshows.countedBy hperm).unitCounts hmin hmax⟩

theorem build_unitCounts_four :
    ∃ g, build { dim := 4, minSize := 1, maxSize := 2 } = .ok g ∧ g.stats.terminals = 7 ∧
      g.stats.ands = 10 ∧ g.stats.ors = 6 ∧ g.stats.edges = 33 ∧ g.size = 23 := by
  obtain ⟨g, hg, h⟩ := build_unitCounts (b := { dim := 4, minSize := 1, maxSize := 2 }) rfl
    (by decide) (by decide)
  have hterminals : g.stats.terminals = 7 := h.terminals
  have hands : g.stats.ands = 10 := h.ands
  have hors : g.stats.ors = 6 := h.ors
  have hedges : g.stats.edges = 33 := by
    rw [h.edges, hands]
    rfl
  refine ⟨g, hg, hterminals, hands, hors, hedges, ?_⟩
  rw [h.size_eq, hterminals, hands, hors]

end Graph
end AndOrFlow
