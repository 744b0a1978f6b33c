import AndOrFlow.Proofs.Item
import Mathlib.Logic.Relation

/-!
# Which spans occur in a decomposition of the domain

A span occurs when its length can be filled and so can, as far as there are any, the positions
before it and those behind it. The items that lead on from the item of the whole domain are exactly
those that the bounds give rise to over spans that occur: two cuts are enough to come from the
domain to any of them.
-/
namespace AndOrFlow
open Relation Bounds
variable {b : Bounds} {s : Span} {x y root : Item}

namespace Bounds

def domain (b : Bounds) : Span := ⟨0, b.dim⟩

/-- The span is part of some decomposition of the domain. -/
structure Occurs (b : Bounds) (s : Span) : Prop where
  proper : s.lo < s.hi
  le_dim : s.hi ≤ b.dim
  before : b.Fillable s.lo
  inside : b.Tilable (s.hi - s.lo)
  behind : b.Fillable (b.dim - s.hi)

theorem Occurs.domain (hb : 1 ≤ b.minSize) (h : b.Tilable b.dim) : b.Occurs b.domain where
  proper := h.pos hb
  le_dim := le_rfl
  before := Or.inl rfl
  inside := h
  behind := Or.inl (Nat.sub_self _)

theorem Occurs.left {k : Nat} (h : b.Occurs s) (hk : s.lo < k ∧ k < s.hi) (hs : b.SplitsAt s k) :
    b.Occurs ⟨s.lo, k⟩ where
  proper := hk.1
  le_dim := hk.2.le.trans h.le_dim
  before := h.before
  inside := hs.1
  behind := by
    have heq : b.dim - k = (s.hi - k) + (b.dim - s.hi) := by
      have := h.le_dim
      omega
    show b.Fillable (b.dim - k)
    rw [heq]
    exact (hs.2.add_fillable h.behind).fillable

theorem Occurs.right {k : Nat} (h : b.Occurs s) (hk : s.lo < k ∧ k < s.hi) (hs : b.SplitsAt s k) :
    b.Occurs ⟨k, s.hi⟩ where
  proper := hk.2
  le_dim := h.le_dim
  before := by
    have heq : k = s.lo + (k - s.lo) := by omega
    show b.Fillable k
    rw [heq]
    exact (h.before.add_tilable hs.1).fillable
  inside := hs.2
  behind := h.behind

end Bounds

namespace Item

/-- A chain of sources leads from the first item to the second. -/
abbrev Leads (b : Bounds) : Item → Item → Prop := ReflTransGen fun x y => y ∈ x.sources b

/-- A leaf of admissible length, a join of two parts that can be filled, or a choice where there is
one, over a span that occurs. -/
def Present (b : Bounds) : Item → Prop
  | leaf s => b.Occurs s ∧ b.Admits (s.hi - s.lo)
  | join s k => b.Occurs s ∧ (s.lo < k ∧ k < s.hi) ∧ b.Tilable (k - s.lo) ∧ b.Tilable (s.hi - k)
  | choice s => b.Occurs s ∧ (2 ≤ (b.alternatives s).length ∨ b.WrapsUnit s)

theorem present_iff : x.Present b ↔ b.Occurs x.span ∧ x.Legit b := by
  cases x with
  | leaf s => rfl
  | join s k => rfl
  | choice s =>
    refine and_congr_right fun h => or_congr_right ⟨fun hw => ⟨hw, ?_⟩, And.left⟩
    intro hnil
    exact (alternatives_eq_nil_iff h.proper).mp hnil h.inside

theorem occurs_of_mem_sources (hx : x.Present b) (hy : y ∈ x.sources b) : b.Occurs y.span := by
  cases x with
  | leaf s => simp [sources] at hy
  | join s k =>
    obtain ⟨hs, hk, hsplit⟩ := hx
    simp only [sources, List.mem_append, Option.mem_toList] at hy
    rcases hy with hy | hy
    · rw [span_of_resolution hy]
      exact hs.left hk hsplit
    · rw [span_of_resolution hy]
      exact hs.right hk hsplit
  | choice s =>
    rw [span_of_mem_alternatives hy]
    exact hx.1

theorem present_of_leads (hroot : root.Present b) (h : root.Leads b x) : x.Present b := by
  induction h with
  | refl => exact hroot
  | tail _ hz ih => exact present_iff.mpr ⟨occurs_of_mem_sources ih hz, legit_of_mem_sources hz⟩

theorem leads_of_mem_alternatives (hres : b.resolution s = some x) (hy : y ∈ b.alternatives s) :
    x.Leads b y := by
  rcases resolution_eq_some_iff.mp hres with ⟨rfl, -⟩ | ⟨hone, -⟩
  · exact .single hy
  · rw [hone, List.mem_singleton] at hy
    rw [hy]

theorem leads_left {k : Nat} (hres : b.resolution s = some x) (hk : s.lo < k ∧ k < s.hi)
    (hs : b.SplitsAt s k) : ∃ y, b.resolution ⟨s.lo, k⟩ = some y ∧ x.Leads b y := by
  obtain ⟨left, right, hleft, -, hsources⟩ := exists_sources_join ⟨hk, hs⟩
  refine ⟨left, hleft, ?_⟩
  exact (leads_of_mem_alternatives hres (join_mem_alternatives.mpr ⟨hk, hs⟩)).tail
    (by simp [hsources])

theorem leads_right {k : Nat} (hres : b.resolution s = some x) (hk : s.lo < k ∧ k < s.hi)
    (hs : b.SplitsAt s k) : ∃ y, b.resolution ⟨k, s.hi⟩ = some y ∧ x.Leads b y := by
  obtain ⟨left, right, -, hright, hsources⟩ := exists_sources_join ⟨hk, hs⟩
  refine ⟨right, hright, ?_⟩
  exact (leads_of_mem_alternatives hres (join_mem_alternatives.mpr ⟨hk, hs⟩)).tail
    (by simp [hsources])

theorem leads_of_occurs (hroot : b.resolution b.domain = some root) (h : b.Occurs s) :
    ∃ y, b.resolution s = some y ∧ root.Leads b y := by
  have hle := h.le_dim
  have hlt := h.proper
  -- One cut takes off what is before the span, a second one what is behind it.
  obtain ⟨mid, hmid, hleads⟩ : ∃ mid, b.resolution ⟨s.lo, b.dim⟩ = some mid ∧ root.Leads b mid := by
    rcases h.before with hlo | hlo
    · exact ⟨root, hlo ▸ hroot, .refl⟩
    · rcases Nat.eq_zero_or_pos s.lo with hzero | hpos
      · exact ⟨root, hzero ▸ hroot, .refl⟩
      · have hrest : b.Tilable (b.dim - s.lo) := by
          have heq : b.dim - s.lo = (s.hi - s.lo) + (b.dim - s.hi) := by omega
          rw [heq]
          exact h.inside.add_fillable h.behind
        exact leads_right (s := b.domain) hroot ⟨hpos, show s.lo < b.dim by omega⟩ ⟨hlo, hrest⟩
  rcases Nat.lt_or_ge s.hi b.dim with hend | hend
  · have hbehind : b.Tilable (b.dim - s.hi) := h.behind.resolve_left (by omega)
    obtain ⟨y, hy, hl⟩ := leads_left (s := ⟨s.lo, b.dim⟩) (k := s.hi) hmid ⟨hlt, hend⟩
      ⟨h.inside, hbehind⟩
    exact ⟨y, hy, hleads.trans hl⟩
  · have heq : (⟨s.lo, b.dim⟩ : Span) = s := by
      rw [Span.ext_iff]
      exact ⟨rfl, le_antisymm hend hle⟩
    exact ⟨mid, heq ▸ hmid, hleads⟩

/-- The items within reach of the root are those present. -/
theorem leads_iff_present (hb : 1 ≤ b.minSize) (hdim : b.Tilable b.dim)
    (hroot : b.resolution b.domain = some root) : root.Leads b x ↔ x.Present b := by
  constructor
  · refine present_of_leads (present_iff.mpr ⟨?_, legit_of_resolution hroot⟩)
    rw [span_of_resolution hroot]
    exact .domain hb hdim
  · intro hx
    obtain ⟨hoccurs, hlegit⟩ := present_iff.mp hx
    obtain ⟨y, hy, hleads⟩ := leads_of_occurs hroot hoccurs
    cases x with
    | leaf s => exact hleads.trans (leads_of_mem_alternatives hy (leaf_mem_alternatives.mpr hlegit))
    | join s k =>
      exact hleads.trans (leads_of_mem_alternatives hy (join_mem_alternatives.mpr hlegit))
    | choice s =>
      have hchoice := resolution_eq_some_iff.mpr (Or.inl ⟨rfl, hlegit⟩)
      obtain rfl := Option.some.inj (hy.symm.trans hchoice)
      exact hleads

end Item
end AndOrFlow
