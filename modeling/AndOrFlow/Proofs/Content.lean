import AndOrFlow.Graph.Build
import AndOrFlow.Proofs.Catalog
import AndOrFlow.Proofs.Occurrence
import AndOrFlow.Proofs.Walk

/-!
# What a built graph holds

Resolving the domain leaves a store in which some nodes may be out of reach of the root. The walk
keeps those within reach and gives them new numbers, so the items of a built graph are those that
can be reached from the item of the whole domain. Which ones these are is again arithmetic: the
lengths before, inside and after a span have to be sums of admissible leaf lengths.
-/
namespace AndOrFlow
open Relation Bounds
variable {b : Bounds} {items : List Item} {x y : Item}

/-- The graph has one node for every item listed, numbered as in the list. -/
structure Graph.Shows (b : Bounds) (g : Graph) (items : List Item) : Prop where
  bounds_eq : g.bounds = b
  nodup : items.Nodup
  length_eq : items.length = g.size
  depicts : ∀ (id : NodeId) (x : Item) (n : Node), items[id]? = some x → g.node? id = some n →
    x.Depicts b items n

def newId (order : Roster NodeId) (id : NodeId) : NodeId := (order.place? id).getD order.size

theorem Graph.canonical_eq {nodes : Array Node} {root : NodeId} {order : Roster NodeId}
    (horder : AndOrFlow.postOrder nodes root = .ok order) (hlt : ∀ id ∈ order, id < nodes.size) :
    ∃ g, canonical nodes root b = .ok g ∧ g.bounds = b ∧ g.size = order.size ∧
      g.root = order.size - 1 ∧ ∀ i, g.node? i =
        (order.toList[i]?.bind fun id => nodes[id]?).map (Node.rename (newId order)) := by
  have hsome : ∀ id ∈ order.toList, (nodes[id]?).isSome := by
    intro id hid
    simp [hlt id (Roster.mem_toList.mp hid)]
  have hlen : (order.items.filterMap fun id => nodes[id]?).size = order.size := by
    rw [← Array.length_toList, Array.toList_filterMap]
    exact Listing.length_filterMap hsome
  unfold canonical
  rw [horder]
  refine ⟨_, rfl, rfl, ?_, ?_, ?_⟩
  · simpa [size] using hlen
  · simp [hlen]
  · intro i
    have hget := Listing.getElem?_filterMap hsome i
    simp only [node?, Array.getElem?_map]
    rw [← Array.getElem?_toList, Array.toList_filterMap]
    exact congrArg (Option.map _) hget

namespace Cache.Catalog
variable {c : Cache} {root id : NodeId}

theorem leads_of_reaches (h : Catalog b c items) (hx : items[root]? = some x)
    (hr : Reaches c.store.nodes root id) : ∃ y, items[id]? = some y ∧ x.Leads b y := by
  induction hr with
  | refl => exact ⟨x, hx, .refl⟩
  | tail _ href ih =>
    obtain ⟨y, hy, hleads⟩ := ih
    obtain ⟨n, hn, hsource⟩ := refersTo_iff.mp href
    obtain ⟨z, hz, hitem⟩ := (h.depicts _ y n hy hn).mem_sources hsource
    exact ⟨z, hitem, hleads.tail hz⟩

theorem reaches_of_leads (h : Catalog b c items) (hx : items[root]? = some x)
    (hl : x.Leads b y) : ∃ id, items[id]? = some y ∧ Reaches c.store.nodes root id := by
  induction hl with
  | refl => exact ⟨root, hx, .refl⟩
  | tail _ hz ih =>
    obtain ⟨id, hid, hreach⟩ := ih
    obtain ⟨n, hn, hd⟩ := h.exists_node hid
    obtain ⟨source, hsource, hitem⟩ := Listing.exists_of_mem_entries hd.sources hz
    exact ⟨source, hitem, hreach.tail (refersTo_iff.mpr ⟨n, hn, hsource⟩)⟩

/-- Renumbering keeps the items within reach of the root. -/
theorem canonical (h : Catalog b c items) (hx : items[root]? = some x) :
    ∃ g kept, Graph.canonical c.store.nodes root b = .ok g ∧ Graph.Shows b g kept ∧
      kept[g.root]? = some x ∧ ∀ y, y ∈ kept ↔ x.Leads b y := by
  have hsize : items.length = c.store.nodes.size := h.length_eq
  have hroot : root < c.store.nodes.size := by
    rw [← hsize]
    exact (List.getElem?_eq_some_iff.mp hx).1
  obtain ⟨order, horder, hlisted⟩ := exists_postOrder hroot fun id source href => by
    obtain ⟨n, hn, hsource⟩ := refersTo_iff.mp href
    exact h.sources_lt id n hn source hsource
  obtain ⟨g, hg, hbounds, hgsize, hgroot, hnodes⟩ :=
    Graph.canonical_eq (b := b) horder hlisted.settled.lt_size
  have hsome : ∀ v ∈ order.toList, (items[v]?).isSome := by
    intro v hv
    have hlt := hlisted.settled.lt_size v (Roster.mem_toList.mp hv)
    simp [hsize, hlt]
  obtain ⟨kept, hkept⟩ : ∃ kept, kept = order.toList.filterMap fun id => items[id]? := ⟨_, rfl⟩
  have hget : ∀ i : Nat, kept[i]? = order.toList[i]?.bind fun id => items[id]? := by
    rw [hkept]
    exact Listing.getElem?_filterMap hsome
  have hplace : ∀ v ∈ order, kept[newId order v]? = items[v]? := by
    intro v hv
    obtain ⟨place, hp⟩ := Option.isSome_iff_exists.mp (Roster.mem_iff_isSome.mp hv)
    rw [hget, newId, hp, Option.getD_some, Roster.place?_eq_some_iff.mp hp, Option.bind_some]
  refine ⟨g, kept, hg, ⟨hbounds, ?_, ?_, ?_⟩, ?_, ?_⟩
  · rw [hkept]
    refine List.Nodup.filterMap ?_ order.nodup_toList
    intro i j y hi hj
    exact Listing.position_inj h.nodup hi hj
  · rw [hkept, Listing.length_filterMap hsome, hgsize]
    rfl
  · intro i y m hy hm
    rw [hget] at hy
    rw [hnodes] at hm
    obtain ⟨id, hid, hy⟩ := Option.bind_eq_some_iff.mp hy
    rw [hid, Option.bind_some] at hm
    obtain ⟨n, hn, rfl⟩ := Option.map_eq_some_iff.mp hm
    have hd := h.depicts id y n hy hn
    refine ⟨by simpa using hd.kind, by simpa using hd.span, ?_⟩
    rw [Node.sources_rename, List.map_map, ← hd.sources]
    refine List.map_congr_left fun source hsource => hplace source ?_
    have hmem := (hlisted.mem_iff id).mp (Roster.mem_toList.mp (List.mem_of_getElem? hid))
    exact (hlisted.mem_iff source).mpr (hmem.tail (refersTo_iff.mpr ⟨n, hn, hsource⟩))
  · have hlast := hlisted.last
    rw [List.getLast?_eq_getElem?] at hlast
    rw [hget, hgroot]
    exact (congrArg (·.bind fun id => items[id]?) hlast).trans hx
  · intro y
    rw [hkept]
    simp only [List.mem_filterMap, Roster.mem_toList, hlisted.mem_iff]
    constructor
    · rintro ⟨id, hreach, hid⟩
      obtain ⟨z, hz, hleads⟩ := h.leads_of_reaches hx hreach
      cases hid.symm.trans hz
      exact hleads
    · intro hleads
      obtain ⟨id, hid, hreach⟩ := h.reaches_of_leads hx hleads
      exact ⟨id, hreach, hid⟩

end Cache.Catalog

namespace Graph
variable {g : Graph}

/-- What a build makes of the answer for the domain. -/
def conclude (b : Bounds) (c : Cache) : Option NodeId → Except (Failure GraphError) Graph
  | none => Failure.raise (.undecomposable b.domain)
  | some root => (canonical c.store.nodes root b).mapError .error

theorem proper_domain (hb : b.defect? = none) : b.domain.Proper := by
  obtain ⟨hmin, hdim, -⟩ := defect?_eq_none_iff.mp hb
  exact show 0 < b.dim by omega

theorem build_eq (hb : b.defect? = none) : build b =
    (Cache.empty.resolve b b.domain).1.mapError Failure.fault >>=
      conclude b (Cache.empty.resolve b b.domain).2 := by
  have hmake : Span.make 0 b.dim = .ok b.domain := if_pos (proper_domain hb)
  unfold build
  rw [hb, hmake]
  have hlift : ∀ {α : Type} (a : α), (liftM (.ok a : Checked α) : Except (Failure GraphError) α) =
      .ok a := fun _ => rfl
  simp only [hlift, bind, Except.bind]
  generalize Cache.empty.resolve b b.domain = resolved
  obtain ⟨found, c⟩ := resolved
  rcases found with f | _ | root <;> rfl

/-- Sound bounds leave a run that resolves the domain and renumbers what it finds. -/
theorem build_of_defect_none (hb : b.defect? = none) :
    ∃ (answer : Option NodeId) (c : Cache) (items : List Item), Cache.Catalog b c items ∧
      answer.map (fun id => items[id]?) = (b.resolution b.domain).map some ∧
      build b = conclude b c answer := by
  obtain ⟨answer, items, hans, -, hcatalog, hanswer⟩ := Cache.Catalog.empty.resolve (b := b)
    (proper_domain hb) (by decide : (0 : Nat) + 1 < Word.limit)
  refine ⟨answer, _, items, hcatalog, hanswer, ?_⟩
  rw [build_eq hb, hans]
  rfl

theorem build_of_not_tilable (hb : b.defect? = none) (h : ¬ b.Tilable b.dim) :
    build b = Failure.raise (.undecomposable b.domain) := by
  obtain ⟨answer, c, items, -, hanswer, heq⟩ := build_of_defect_none hb
  have hnone : b.resolution b.domain = none :=
    resolution_eq_none_iff.mpr ((alternatives_eq_nil_iff (proper_domain hb)).mpr h)
  rw [hnone] at hanswer
  rw [heq, Option.map_eq_none_iff.mp hanswer, conclude]

theorem build_of_tilable (hb : b.defect? = none) (h : b.Tilable b.dim) :
    ∃ g items, build b = .ok g ∧ g.Shows b items ∧ items[g.root]? = b.resolution b.domain ∧
      ∀ x, x ∈ items ↔ x.Present b := by
  obtain ⟨answer, c, items, hcatalog, hanswer, heq⟩ := build_of_defect_none hb
  have hmin := (defect?_eq_none_iff.mp hb).1
  obtain ⟨root, hroot⟩ := exists_resolution (proper_domain hb) h
  cases answer with
  | none => simp [hroot] at hanswer
  | some id =>
    rw [hroot] at hanswer
    obtain ⟨g, kept, hg, hshows, hlast, hmem⟩ := hcatalog.canonical (Option.some.inj hanswer)
    refine ⟨g, kept, ?_, hshows, hlast.trans hroot.symm, fun x => ?_⟩
    · rw [heq]
      change (canonical c.store.nodes id b).mapError Failure.error = .ok g
      rw [hg]
      rfl
    · rw [hmem]
      exact Item.leads_iff_present hmin h hroot

/-- A graph that is built shows the items present, its root the item of the domain. -/
theorem shows_of_build (h : build b = .ok g) : 1 ≤ b.minSize ∧ b.Tilable b.dim ∧
    ∃ items, g.Shows b items ∧ items[g.root]? = b.resolution b.domain ∧
      ∀ x, x ∈ items ↔ x.Present b := by
  have hb : b.defect? = none := by
    cases hdefect : b.defect? with
    | none => rfl
    | some d => simp [build, hdefect, Failure.raise] at h
  by_cases hdim : b.Tilable b.dim
  · obtain ⟨g', items, hg', hshows, hroot, hmem⟩ := build_of_tilable hb hdim
    obtain rfl : g = g' := Except.ok.inj (h.symm.trans hg')
    exact ⟨(defect?_eq_none_iff.mp hb).1, hdim, items, hshows, hroot, hmem⟩
  · rw [build_of_not_tilable hb hdim] at h
    cases h

theorem Shows.exists_item {id : NodeId} {n : Node} (h : g.Shows b items)
    (hn : g.node? id = some n) : ∃ x, items[id]? = some x ∧ x.Depicts b items n := by
  obtain ⟨x, hx⟩ := Listing.exists_entry h.length_eq hn
  exact ⟨x, hx, h.depicts id x n hx hn⟩

theorem Shows.exists_node {id : NodeId} (h : g.Shows b items) (hx : items[id]? = some x) :
    ∃ n, g.node? id = some n ∧ x.Depicts b items n := by
  obtain ⟨n, hn⟩ := Listing.exists_element h.length_eq hx
  exact ⟨n, hn, h.depicts id x n hx hn⟩

theorem Shows.nodup_nodes (h : g.Shows b items) (hlegit : ∀ x ∈ items, x.Legit b) :
    g.nodes.toList.Nodup := by
  rw [List.nodup_iff_pairwise_ne, List.pairwise_iff_getElem]
  intro i j hi hj hij heq
  have hni : g.node? i = some g.nodes.toList[i] := by
    rw [node?, ← Array.getElem?_toList, List.getElem?_eq_getElem hi]
  have hnj : g.node? j = some g.nodes.toList[j] := by
    rw [node?, ← Array.getElem?_toList, List.getElem?_eq_getElem hj]
  obtain ⟨x, hx, hdx⟩ := h.exists_item hni
  obtain ⟨y, hy, hdy⟩ := h.exists_item hnj
  have hxy : x = y := hdx.item_eq (hlegit x (List.mem_of_getElem? hx))
    (hlegit y (List.mem_of_getElem? hy)) hdy (congrArg Node.key heq)
  have := Listing.position_inj h.nodup hx (hxy ▸ hy)
  omega

/-- The graph holds one node for every item present and nothing else. What a node refers to is given
by `Item.sources`: the item of a span is the choice over it, or its only alternative where there is
no choice. -/
structure Exact (b : Bounds) (g : Graph) : Prop where
  nodup : g.nodes.toList.Nodup
  one_for_each : ∃ items, g.Shows b items ∧ items[g.root]? = b.resolution b.domain ∧
    ∀ x, x ∈ items ↔ x.Present b

theorem build_exact (h : build b = .ok g) : g.Exact b := by
  obtain ⟨-, -, items, hshows, hroot, hmem⟩ := shows_of_build h
  refine ⟨hshows.nodup_nodes fun x hx => ?_, items, hshows, hroot, hmem⟩
  exact (Item.present_iff.mp ((hmem x).mp hx)).2

/-- Leaves of two or three positions over a domain of five. The span `[0, 4)` is joined from two
leaves on the way, but what is left of the domain is too short, so the graph does not hold it. -/
theorem build_exact_five : ∃ g, build { dim := 5, minSize := 2, maxSize := 3 } = .ok g ∧
    g.size = 7 ∧ g.Exact { dim := 5, minSize := 2, maxSize := 3 } := by
  have hsize : (build { dim := 5, minSize := 2, maxSize := 3 }).toOption.map size = some 7 := by
    decide +kernel
  cases h : build { dim := 5, minSize := 2, maxSize := 3 } with
  | error e => simp [h, Except.toOption] at hsize
  | ok g =>
    refine ⟨g, rfl, ?_, build_exact h⟩
    simpa [h, Except.toOption] using hsize

end Graph
end AndOrFlow
