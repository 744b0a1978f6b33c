import AndOrFlow.Proofs.Unfolding
import AndOrFlow.Proofs.Validity

/-!
# Built graphs are accepted

A graph that is built shows items, and an item refers to items of a smaller rank: a join to what
resolves its two parts, a choice to leaves and joins over its own span. So the walk finds no cycle,
and each node keeps the rule of its kind because its item does.
-/
namespace AndOrFlow

open Bounds

variable {b : Bounds} {x y : Item} {s : Span} {g : Graph} {items : List Item} {id : NodeId}
  {n : Node}

namespace Item

/-- Twice the width of the span, and one more for a choice. -/
def rank : Item → Nat
  | leaf s | join s _ => 2 * s.width
  | choice s => 2 * s.width + 1

theorem rank_le (x : Item) : x.rank ≤ 2 * x.span.width + 1 := by
  cases x <;> simp [rank, span]

theorem rank_of_mem_alternatives (h : x ∈ b.alternatives s) : x.rank = 2 * s.width := by
  rcases mem_alternatives.mp h with ⟨hleaf, -⟩ | ⟨k, hjoin, -⟩
  · rw [hleaf, rank]
  · rw [hjoin, rank]

theorem kind_of_mem_alternatives (h : x ∈ b.alternatives s) : x.kind ≠ .or := by
  rcases mem_alternatives.mp h with ⟨rfl, -⟩ | ⟨k, rfl, -⟩
  · simp [kind]
  · simp [kind]

theorem rank_lt_of_mem_sources (hx : x.Legit b) (hy : y ∈ x.sources b) : y.rank < x.rank := by
  cases x with
  | leaf s => simp [sources] at hy
  | join s k =>
    obtain ⟨left, right, hleft, hright, hsources⟩ := exists_sources_join hx
    obtain ⟨hlo, hhi⟩ : s.lo < k ∧ k < s.hi := hx.1
    have hspan : y.span = ⟨s.lo, k⟩ ∨ y.span = ⟨k, s.hi⟩ := by
      rw [hsources, List.mem_pair] at hy
      rcases hy with rfl | rfl
      · exact Or.inl (span_of_resolution hleft)
      · exact Or.inr (span_of_resolution hright)
    have hwidth : y.span.width < s.width := by
      simp only [Span.width]
      rcases hspan with hspan | hspan
      · simp only [hspan]
        omega
      · simp only [hspan]
        omega
    have hle := y.rank_le
    rw [rank]
    omega
  | choice s =>
    rw [rank_of_mem_alternatives hy, rank]
    omega

end Item

namespace Graph

def rankAt (items : List Item) (id : NodeId) : Nat := (items[id]?.map Item.rank).getD 0

section

variable (h : g.Shows b items) (hlegit : ∀ x ∈ items, x.Legit b)
include h hlegit

theorem Shows.exists_order (hroot : g.root < g.size) : ∃ order, g.postOrder = .ok order := by
  have hitem : ∀ id source, RefersTo g.nodes id source → ∃ x y, items[id]? = some x ∧
      items[source]? = some y ∧ y ∈ x.sources b := by
    intro id source href
    obtain ⟨n, hn, hsource⟩ := refersTo_iff.mp href
    obtain ⟨x, hx, hdepicts⟩ := h.exists_item hn
    obtain ⟨y, hy, hitem⟩ := hdepicts.mem_sources hsource
    exact ⟨x, y, hx, hitem, hy⟩
  have hsize : ∀ id source, RefersTo g.nodes id source → source < g.nodes.size := by
    intro id source href
    obtain ⟨x, y, -, hy, -⟩ := hitem id source href
    obtain ⟨n, hn, -⟩ := h.exists_node hy
    exact (Array.getElem?_eq_some_iff.mp hn).1
  have hrank : ∀ id source, RefersTo g.nodes id source → rankAt items source < rankAt items id := by
    intro id source href
    obtain ⟨x, y, hx, hy, hmem⟩ := hitem id source href
    rw [rankAt, rankAt, hx, hy]
    exact Item.rank_lt_of_mem_sources (hlegit x (List.mem_of_getElem? hx)) hmem
  obtain ⟨order, horder, -⟩ := exists_postOrder_of_rank hroot (rankAt items) hsize hrank
  exact ⟨order, horder⟩

theorem Shows.keeps (hmin : 1 ≤ b.minSize) (hn : g.node? id = some n) : g.Keeps n := by
  obtain ⟨x, hx, hdepicts⟩ := h.exists_item hn
  have hlegitx := hlegit x (List.mem_of_getElem? hx)
  have hspan := hdepicts.span
  cases x with
  | leaf s =>
    cases n with
    | terminal t =>
      obtain rfl : t = s := hspan
      have hadmits : b.Admits t.width := hlegitx
      have hlt : 0 < t.hi - t.lo := Nat.lt_of_lt_of_le hmin hadmits.1
      rw [Keeps, h.bounds_eq]
      exact ⟨Nat.le_of_lt (Nat.lt_of_sub_pos hlt), hadmits⟩
    | and | or => cases hdepicts.kind
  | join s k =>
    obtain ⟨l, r, left, right, rfl, hl, hleft, hr, hright⟩ := sources_join hlegitx hdepicts
    obtain ⟨m, hm, hdm⟩ := h.exists_node hl
    obtain ⟨m', hm', hdm'⟩ := h.exists_node hr
    have hspanm : m.span = ⟨s.lo, k⟩ := hdm.span.trans (span_of_resolution hleft)
    have hspanm' : m'.span = ⟨k, s.hi⟩ := hdm'.span.trans (span_of_resolution hright)
    refine ⟨by simp, m, hm, by rw [hspanm], m', hm', ?_, ?_⟩
    · rw [hspanm, hspanm']
    · rw [hspanm']
      rfl
  | choice s =>
    cases n with
    | or t alternatives =>
      obtain rfl : t = s := hspan
      constructor
      · intro hnil
        have hsources := hdepicts.sources
        simp only [Node.sources, hnil, List.map_nil] at hsources
        exact Item.alternatives_ne_nil hlegitx (List.map_eq_nil_iff.mp hsources.symm)
      · intro a ha
        obtain ⟨y, hy, hitem⟩ := hdepicts.mem_sources ha
        obtain ⟨m, hm, hdm⟩ := h.exists_node hitem
        refine ⟨m, hm, ?_, hdm.span.trans (span_of_mem_alternatives hy)⟩
        have hkind := Item.kind_of_mem_alternatives hy
        rw [← hdm.kind] at hkind
        simpa [Node.isOr] using hkind
    | terminal | and => cases hdepicts.kind

end

theorem proper_of_build (h : build b = .ok g) : g.Proper := by
  obtain ⟨hmin, hdim, items, hshows, hroot, hmem⟩ := shows_of_build h
  have hpresent : ∀ x ∈ items, b.Occurs x.span ∧ x.Legit b := fun x hx =>
    Item.present_iff.mp ((hmem x).mp hx)
  have hlegit : ∀ x ∈ items, x.Legit b := fun x hx => (hpresent x hx).2
  obtain ⟨x, hx⟩ := exists_resolution (s := b.domain) (hdim.pos hmin) hdim
  rw [hx] at hroot
  obtain ⟨n, hn, hdepicts⟩ := hshows.exists_node hroot
  have hspan : n.span = ⟨0, g.bounds.dim⟩ := by
    rw [hdepicts.span, span_of_resolution hx, hshows.bounds_eq]
    rfl
  have horder := hshows.exists_order hlegit (Array.getElem?_eq_some_iff.mp hn).1
  refine ⟨validate_eq_ok_iff.mpr ⟨horder, ⟨n, hn, hspan⟩, ?_⟩, hshows.bounds_eq ▸ hmin⟩
  intro id m hm
  exact hshows.keeps hlegit hmin hm

end Graph
end AndOrFlow
