import AndOrFlow.Proofs.Content

/-!
# Unfolding a built graph

A graph stands for many trees: a terminal for its leaf, an and-node for every cut of an unfolding of
its left source and one of its right source, an or-node for whatever one of its alternatives stands
for. The root of a built graph stands for all ways to split the domain down to admissible leaves,
and for each of them by one sequence of alternatives only.
-/
namespace AndOrFlow
open Bounds
variable {b : Bounds} {s : Span} {items : List Item} {x y : Item} {g : Graph}

inductive SplitTree where
  | leaf (s : Span)
  | cut (k : Nat) (left right : SplitTree)
  deriving DecidableEq

namespace SplitTree

/-- The tree splits the span down to leaves of admissible length. -/
def Over (b : Bounds) : SplitTree → Span → Prop
  | leaf s, t => s = t ∧ b.Admits (t.hi - t.lo)
  | cut k left right, t =>
    (t.lo < k ∧ k < t.hi) ∧ left.Over b ⟨t.lo, k⟩ ∧ right.Over b ⟨k, t.hi⟩

def leaves : SplitTree → List Span
  | leaf s => [s]
  | cut _ left right => left.leaves ++ right.leaves

theorem Over.tilable {t : SplitTree} (h : t.Over b s) : b.Tilable s.width := by
  induction t generalizing s with
  | leaf r => exact .of_admits h.2
  | cut k left right ihl ihr =>
    obtain ⟨hk, hleft, hright⟩ := h
    have heq : s.width = (k - s.lo) + (s.hi - k) := by
      simp only [Span.width]
      omega
    rw [heq]
    exact (ihl hleft).add (ihr hright)

end SplitTree

/-- The spans follow each other from `lo` to `hi`, each of admissible length. -/
inductive Bounds.Tiles (b : Bounds) (hi : Nat) : Nat → List Span → Prop
  | done : Tiles b hi hi []
  | next {lo mid : Nat} {rest : List Span} : lo < mid → b.Admits (mid - lo) →
      Tiles b hi mid rest → Tiles b hi lo (⟨lo, mid⟩ :: rest)

theorem Bounds.Tiles.append {lo mid hi : Nat} {front back : List Span} (h : b.Tiles mid lo front)
    (h' : b.Tiles hi mid back) : b.Tiles hi lo (front ++ back) := by
  induction h with
  | done => exact h'
  | next hlt hadmits _ ih => exact .next hlt hadmits ih

/-- Cutting off one leaf after the other. -/
theorem Bounds.Tiles.exists_tree {lo hi : Nat} {spans : List Span} (h : b.Tiles hi lo spans)
    (hne : spans ≠ []) : lo < hi ∧ ∃ t : SplitTree, t.Over b ⟨lo, hi⟩ ∧ t.leaves = spans := by
  induction h with
  | done => exact absurd rfl hne
  | @next lo mid rest hlt hadmits htiles ih =>
    by_cases hrest : rest = []
    · subst hrest
      cases htiles
      exact ⟨hlt, .leaf ⟨lo, hi⟩, ⟨rfl, hadmits⟩, rfl⟩
    · obtain ⟨hmid, t, hover, hleaves⟩ := ih hrest
      refine ⟨hlt.trans hmid, .cut mid (.leaf ⟨lo, mid⟩) t, ⟨⟨hlt, hmid⟩, ⟨rfl, hadmits⟩, hover⟩, ?_⟩
      simp [SplitTree.leaves, hleaves]

theorem SplitTree.Over.tiles {t : SplitTree} (hb : 1 ≤ b.minSize) (h : t.Over b s) :
    b.Tiles s.hi s.lo t.leaves := by
  induction t generalizing s with
  | leaf r =>
    obtain ⟨rfl, hadmits⟩ := h
    have hlt : r.lo < r.hi := by
      have := hadmits.1
      omega
    exact .next hlt hadmits .done
  | cut k left right ihl ihr => exact (ihl h.2.1).append (ihr h.2.2)

/-- The node stands for the tree by this sequence of alternatives, taken from the left. The cut of
an and-node lies where its left source ends. -/
inductive Graph.Unfolds (g : Graph) : NodeId → List Nat → SplitTree → Prop
  | terminal {id : NodeId} {s : Span} : g.node? id = some (.terminal s) → Unfolds g id [] (.leaf s)
  | and {id l r : NodeId} {s : Span} {n : Node} {cs ds : List Nat} {t u : SplitTree} :
      g.node? id = some (.and s [l, r]) → g.node? l = some n → Unfolds g l cs t →
      Unfolds g r ds u → Unfolds g id (cs ++ ds) (.cut n.span.hi t u)
  | or {id alternative : NodeId} {s : Span} {ids : List NodeId} {i : Nat} {cs : List Nat}
      {t : SplitTree} : g.node? id = some (.or s ids) → ids[i]? = some alternative →
      Unfolds g alternative cs t → Unfolds g id (i :: cs) t

namespace Item
variable {t : SplitTree}

def Yields (b : Bounds) : Item → SplitTree → Prop
  | leaf s, t => t = .leaf s
  | join s k, t => ∃ left right, t = .cut k left right ∧ left.Over b ⟨s.lo, k⟩ ∧
      right.Over b ⟨k, s.hi⟩
  | choice s, t => t.Over b s

/-- A tree over a span comes from one of the alternatives of the span. -/
theorem over_iff : t.Over b s ↔ ∃ x ∈ b.alternatives s, x.Yields b t := by
  constructor
  · intro h
    cases t with
    | leaf r =>
      obtain ⟨rfl, hadmits⟩ := h
      exact ⟨.leaf r, leaf_mem_alternatives.mpr hadmits, rfl⟩
    | cut k left right =>
      obtain ⟨hk, hleft, hright⟩ := h
      exact ⟨.join s k, join_mem_alternatives.mpr ⟨hk, hleft.tilable, hright.tilable⟩,
        left, right, rfl, hleft, hright⟩
  · rintro ⟨x, hx, hy⟩
    rcases mem_alternatives.mp hx with ⟨rfl, hadmits⟩ | ⟨k, rfl, hk, -⟩
    · obtain rfl : t = .leaf s := hy
      exact ⟨rfl, hadmits⟩
    · obtain ⟨left, right, rfl, hleft, hright⟩ := hy
      exact ⟨hk, hleft, hright⟩

theorem yields_iff_of_resolution (h : b.resolution s = some x) : x.Yields b t ↔ t.Over b s := by
  rcases resolution_eq_some_iff.mp h with ⟨rfl, -⟩ | ⟨hone, -⟩
  · rfl
  · rw [over_iff, hone]
    simp

/-- A tree tells which alternative it comes from. -/
theorem eq_of_yields (hx : x ∈ b.alternatives s) (hy : y ∈ b.alternatives s) (hxt : x.Yields b t)
    (hyt : y.Yields b t) : x = y := by
  rcases mem_alternatives.mp hx with ⟨rfl, -⟩ | ⟨k, rfl, -⟩
  · obtain rfl : t = .leaf s := hxt
    rcases mem_alternatives.mp hy with ⟨rfl, -⟩ | ⟨j, rfl, -⟩
    · rfl
    · obtain ⟨_, _, h, -⟩ := hyt
      cases h
  · obtain ⟨left, right, rfl, -⟩ := hxt
    rcases mem_alternatives.mp hy with ⟨rfl, -⟩ | ⟨j, rfl, -⟩
    · cases hyt
    · obtain ⟨_, _, h, -⟩ := hyt
      cases h
      rfl

end Item

namespace Graph
variable {id : NodeId} {t : SplitTree} {cs ds : List Nat}

theorem Shows.sources_join {k : Nat} {n : Node} (hlegit : (Item.join s k).Legit b)
    (hd : (Item.join s k).Depicts b items n) : ∃ l r left right, n = .and s [l, r] ∧
      items[l]? = some left ∧ b.resolution ⟨s.lo, k⟩ = some left ∧
      items[r]? = some right ∧ b.resolution ⟨k, s.hi⟩ = some right := by
  obtain ⟨left, right, hleft, hright, hsources⟩ := Item.exists_sources_join hlegit
  have hkind := hd.kind
  have hspan := hd.span
  have hids := hd.sources
  rw [hsources] at hids
  cases n with
  | terminal | or => cases hkind
  | and r children =>
    obtain rfl : r = s := hspan
    simp only [Node.sources, List.map_cons, List.map_nil] at hids
    obtain ⟨l, rest, rfl, hl, hrest⟩ := List.map_eq_cons_iff.mp hids
    obtain ⟨r, rfl, hr⟩ := List.map_eq_singleton_iff.mp hrest
    exact ⟨l, r, left, right, rfl, hl, hleft, hr, hright⟩

/-- Unfolding a node only gives trees that its item stands for. -/
theorem Shows.yields (h : g.Shows b items) (hlegit : ∀ x ∈ items, x.Legit b)
    (hu : g.Unfolds id cs t) (hx : items[id]? = some x) : x.Yields b t := by
  induction hu generalizing x with
  | @terminal id s hn =>
    have hd := h.depicts _ x _ hx hn
    cases x with
    | leaf r => exact congrArg SplitTree.leaf hd.span
    | join | choice => cases hd.kind
  | @and id l r s n cs ds t u hn hl _ _ iht ihu =>
    have hd := h.depicts _ x _ hx hn
    cases x with
    | join r k =>
      obtain ⟨i, j, left, right, heq, hi, hleft, hj, hright⟩ :=
        Shows.sources_join (hlegit _ (List.mem_of_getElem? hx)) hd
      cases heq
      have hcut : n.span.hi = k := by
        rw [(h.depicts _ left n hi hl).span, span_of_resolution hleft]
      refine ⟨t, u, by rw [hcut], ?_, ?_⟩
      · exact (Item.yields_iff_of_resolution hleft).mp (iht hi)
      · exact (Item.yields_iff_of_resolution hright).mp (ihu hj)
    | leaf | choice => cases hd.kind
  | @or id alternative s ids i cs t hn halt _ ih =>
    have hd := h.depicts _ x _ hx hn
    cases x with
    | choice r =>
      obtain ⟨y, hy, hitem⟩ := hd.mem_sources (List.mem_of_getElem? halt)
      exact Item.over_iff.mpr ⟨y, hy, ih hitem⟩
    | leaf | join => cases hd.kind

/-- An or-node unfolds to whatever one of its alternatives unfolds to. -/
theorem Shows.unfolds_choice (h : g.Shows b items) (hx : items[id]? = some (.choice s))
    (hy : y ∈ b.alternatives s)
    (hu : ∀ alternative, items[alternative]? = some y → ∃ cs, g.Unfolds alternative cs t) :
    ∃ cs, g.Unfolds id cs t := by
  obtain ⟨n, hn, hd⟩ := h.exists_node hx
  obtain ⟨alternative, hmem, hitem⟩ := Listing.exists_of_mem_entries hd.sources hy
  obtain ⟨i, hi⟩ := List.mem_iff_getElem?.mp hmem
  obtain ⟨cs, hcs⟩ := hu alternative hitem
  cases n with
  | or r ids => exact ⟨i :: cs, .or hn hi hcs⟩
  | terminal | and => cases hd.kind

/-- Every tree that an item stands for is an unfolding of its node. -/
theorem Shows.exists_unfolds (h : g.Shows b items) (hlegit : ∀ x ∈ items, x.Legit b)
    (hx : items[id]? = some x) (ht : x.Yields b t) : ∃ cs, g.Unfolds id cs t := by
  induction t generalizing id x with
  | leaf r =>
    have hleaf : ∀ id, items[id]? = some (.leaf r) → ∃ cs, g.Unfolds id cs (.leaf r) := by
      intro id hid
      obtain ⟨n, hn, hd⟩ := h.exists_node hid
      cases n with
      | terminal s =>
        obtain rfl : s = r := hd.span
        exact ⟨[], .terminal hn⟩
      | and | or => cases hd.kind
    cases x with
    | leaf s =>
      obtain rfl := SplitTree.leaf.inj ht
      exact hleaf id hx
    | join s k =>
      obtain ⟨_, _, heq, -⟩ := ht
      cases heq
    | choice s =>
      obtain ⟨rfl, hadmits⟩ := ht
      exact h.unfolds_choice hx (leaf_mem_alternatives.mpr hadmits) hleaf
  | cut k t u iht ihu =>
    have hjoin : ∀ s id, items[id]? = some (.join s k) → t.Over b ⟨s.lo, k⟩ →
        u.Over b ⟨k, s.hi⟩ → ∃ cs, g.Unfolds id cs (.cut k t u) := by
      intro s id hid hleft hright
      obtain ⟨n, hn, hd⟩ := h.exists_node hid
      obtain ⟨l, r, left, right, rfl, hl, hresl, hr, hresr⟩ :=
        Shows.sources_join (hlegit _ (List.mem_of_getElem? hid)) hd
      obtain ⟨cs, hcs⟩ := iht hl ((Item.yields_iff_of_resolution hresl).mpr hleft)
      obtain ⟨ds, hds⟩ := ihu hr ((Item.yields_iff_of_resolution hresr).mpr hright)
      obtain ⟨m, hm, hdm⟩ := h.exists_node hl
      have hcut : m.span.hi = k := by rw [hdm.span, span_of_resolution hresl]
      exact ⟨cs ++ ds, hcut ▸ .and hn hm hcs hds⟩
    cases x with
    | leaf s => cases ht
    | join s j =>
      obtain ⟨_, _, heq, hleft, hright⟩ := ht
      cases heq
      exact hjoin s id hx hleft hright
    | choice s =>
      obtain ⟨hk, hleft, hright⟩ := ht
      have hmem := join_mem_alternatives.mpr ⟨hk, hleft.tilable, hright.tilable⟩
      exact h.unfolds_choice hx hmem fun alternative halt => hjoin s alternative halt hleft hright

theorem Shows.nodup_of_or {ids : List NodeId} (h : g.Shows b items)
    (hn : g.node? id = some (.or s ids)) : ids.Nodup := by
  obtain ⟨x, hx, hd⟩ := h.exists_item hn
  cases x with
  | choice r =>
    have hnodup := (Bounds.nodup_alternatives b r).map (Option.some_injective Item)
    exact List.Nodup.of_map _ (hd.sources ▸ hnodup)
  | leaf | join => cases hd.kind

/-- Two alternatives of an or-node that unfold to the same tree are one. -/
theorem Shows.alternative_inj {ids : List NodeId} {l r : NodeId} (h : g.Shows b items)
    (hlegit : ∀ x ∈ items, x.Legit b) (hn : g.node? id = some (.or s ids)) (hl : l ∈ ids)
    (hr : r ∈ ids) (hlt : g.Unfolds l cs t) (hrt : g.Unfolds r ds t) : l = r := by
  obtain ⟨x, hx, hd⟩ := h.exists_item hn
  cases x with
  | choice u =>
    obtain ⟨y, hy, hly⟩ := hd.mem_sources hl
    obtain ⟨z, hz, hrz⟩ := hd.mem_sources hr
    obtain rfl := Item.eq_of_yields hy hz (h.yields hlegit hlt hly) (h.yields hlegit hrt hrz)
    exact Listing.position_inj h.nodup hly hrz
  | leaf | join => cases hd.kind

/-- The tree tells the alternatives taken on the way. -/
theorem Shows.unfolds_inj (h : g.Shows b items) (hlegit : ∀ x ∈ items, x.Legit b)
    (hcs : g.Unfolds id cs t) (hds : g.Unfolds id ds t) : cs = ds := by
  induction hcs generalizing ds with
  | terminal hn =>
    cases hds with
    | terminal => rfl
    | or hm => cases hn.symm.trans hm
  | @and id l r s n cs ds' t u hn hl _ _ iht ihu =>
    generalize htree : SplitTree.cut n.span.hi t u = tree at hds
    cases hds with
    | terminal => cases htree
    | and hm _ ht hu =>
      obtain ⟨-, rfl, rfl⟩ := SplitTree.cut.inj htree
      cases hn.symm.trans hm
      rw [iht ht, ihu hu]
    | or hm => cases hn.symm.trans hm
  | @or id alternative s ids i cs t hn halt hcs ih =>
    cases hds with
    | terminal hm => cases hn.symm.trans hm
    | and hm => cases hn.symm.trans hm
    | or hm halt' hds =>
      cases hn.symm.trans hm
      obtain rfl := h.alternative_inj hlegit hn (List.mem_of_getElem? halt)
        (List.mem_of_getElem? halt') hcs hds
      rw [ih hds, Listing.position_inj (h.nodup_of_or hn) halt halt']

/-- The root stands for every way to split the domain down to admissible leaves, by one sequence of
alternatives each, and for nothing else; so the leaves it gives are the tilings of the domain. -/
structure RepresentsSplits (b : Bounds) (g : Graph) : Prop where
  sound : ∀ t cs, g.Unfolds g.root cs t → t.Over b ⟨0, b.dim⟩
  existsUnique : ∀ t : SplitTree, t.Over b ⟨0, b.dim⟩ → ∃! cs, g.Unfolds g.root cs t
  leaves_iff : ∀ spans, (∃ t cs, g.Unfolds g.root cs t ∧ t.leaves = spans) ↔
    b.Tiles b.dim 0 spans

theorem build_represents (h : build b = .ok g) : g.RepresentsSplits b := by
  obtain ⟨hmin, hdim, items, hshows, hroot, hmem⟩ := shows_of_build h
  have hlegit : ∀ x ∈ items, x.Legit b := fun x hx => (Item.present_iff.mp ((hmem x).mp hx)).2
  obtain ⟨x, hx⟩ := exists_resolution (s := b.domain) (hdim.pos hmin) hdim
  rw [hx] at hroot
  have hover : ∀ t cs, g.Unfolds g.root cs t → t.Over b ⟨0, b.dim⟩ := fun t cs hu =>
    (Item.yields_iff_of_resolution hx).mp (hshows.yields hlegit hu hroot)
  have hunique : ∀ t : SplitTree, t.Over b ⟨0, b.dim⟩ → ∃! cs, g.Unfolds g.root cs t := by
    intro t ht
    obtain ⟨cs, hcs⟩ :=
      hshows.exists_unfolds hlegit hroot ((Item.yields_iff_of_resolution hx).mpr ht)
    exact ⟨cs, hcs, fun ds hds => hshows.unfolds_inj hlegit hds hcs⟩
  refine ⟨hover, hunique, fun spans => ⟨?_, ?_⟩⟩
  · rintro ⟨t, cs, hu, rfl⟩
    exact (hover t cs hu).tiles hmin
  · intro htiles
    have hne : spans ≠ [] := by
      rintro rfl
      generalize hlo : 0 = lo at htiles
      cases htiles
      exact absurd hlo (hdim.pos hmin).ne
    obtain ⟨-, t, ht, hleaves⟩ := htiles.exists_tree hne
    obtain ⟨cs, hcs, -⟩ := hunique t ht
    exact ⟨t, cs, hcs, hleaves⟩

/-- With choices over single positions as well. -/
theorem build_represents_four :
    ∃ g, build { dim := 4, maxSize := 2, bareUnits := false } = .ok g ∧
      g.RepresentsSplits { dim := 4, maxSize := 2, bareUnits := false } := by
  have hok : (build { dim := 4, maxSize := 2, bareUnits := false }).toOption.isSome = true := by
    decide +kernel
  cases h : build { dim := 4, maxSize := 2, bareUnits := false } with
  | error e => simp [h, Except.toOption] at hok
  | ok g => exact ⟨g, rfl, build_represents h⟩

end Graph
end AndOrFlow
