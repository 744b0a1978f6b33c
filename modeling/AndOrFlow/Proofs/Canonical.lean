import AndOrFlow.Proofs.Acceptance
import AndOrFlow.Proofs.Renumbering

/-!
# Graphs in canonical order

Renumbering leaves a graph whose numbers are those of the walk from its root: nothing is stored that
the root does not reach, sources have smaller numbers, and the walk lists the numbers as they come.
Old and new numbers stand for the same nodes, so the walk from the new root does what the walk from
the old one did, and renumbering once more changes nothing. Built graphs are of this kind.
-/
namespace AndOrFlow

variable {nodes : Array Node} {root id place : NodeId} {b : Bounds} {order : Roster NodeId}
  {g : Graph}

def ListedAt (order : Roster NodeId) (id place : NodeId) : Prop := order.toList[place]? = some id

theorem biUnique_listedAt (order : Roster NodeId) : Relator.BiUnique (ListedAt order) := by
  constructor
  · intro id other place hid hother
    exact Option.some.inj (hid.symm.trans hother)
  · intro id place other hplace hother
    exact Listing.position_inj order.nodup_toList hplace hother

theorem listedAt_newId (h : id ∈ order) : ListedAt order id (newId order id) := by
  obtain ⟨place, hplace⟩ := Option.isSome_iff_exists.mp (Roster.mem_iff_isSome.mp h)
  rw [newId, hplace, Option.getD_some]
  exact Roster.place?_eq_some_iff.mp hplace

namespace Graph

/-- Numbered as the walk from the root lists the nodes. -/
structure Canonical (g : Graph) : Prop where
  reached : ∀ id n, g.node? id = some n → Reaches g.nodes g.root id
  root_last : g.root + 1 = g.size
  sources_lt : ∀ id n, g.node? id = some n → ∀ source ∈ n.sources, source < id
  order_eq : ∃ order, g.postOrder = .ok order ∧ order.toList = List.range g.size
  renumbered : canonical g.nodes g.root g.bounds = .ok g

/-- Renumbering moves every node listed to its place in the order. -/
theorem matches_of_canonical (h : canonical nodes root b = .ok g) : ∃ order,
    AndOrFlow.postOrder nodes root = .ok order ∧ Matches (ListedAt order) nodes g.nodes ∧
      ListedAt order root g.root ∧ g.bounds = b ∧ g.size = order.size := by
  obtain ⟨order, horder, -⟩ := bind_eq_ok_iff.mp h
  have hl := listed_of_postOrder horder
  obtain ⟨g', hg', hbounds, hsize, hroot, hnodes⟩ :=
    canonical_eq (b := b) horder hl.settled.lt_size
  obtain rfl : g = g' := Except.ok.inj (h.symm.trans hg')
  refine ⟨order, horder, ⟨biUnique_listedAt order, ?_⟩, ?_, hbounds, hsize⟩
  · intro id place hplace
    have hid : id ∈ order := Roster.mem_toList.mp (List.mem_of_getElem? hplace)
    have hlt := hl.settled.lt_size id hid
    have hn : nodes[id]? = some nodes[id] := Array.getElem?_eq_getElem hlt
    have hm := hnodes place
    rw [hplace, Option.bind_some, hn, Option.map_some] at hm
    refine ⟨_, _, hn, hm, by simp, by simp, ?_⟩
    rw [Node.sources_rename, List.forall₂_map_right_iff, List.forall₂_same]
    intro source hsource
    have href : RefersTo nodes id source := refersTo_iff.mpr ⟨_, hn, hsource⟩
    exact listedAt_newId (hl.settled.mem_of_reaches hid (.single href))
  · rw [ListedAt, hroot]
    have hlast := hl.last
    rwa [List.getLast?_eq_getElem?] at hlast

theorem order_of_canonical (h : canonical nodes root b = .ok g) :
    ∃ places, g.postOrder = .ok places ∧ places.toList = List.range g.size := by
  obtain ⟨order, horder, hmatches, hroot, -, hsize⟩ := matches_of_canonical h
  have hagree := hmatches.postOrder hroot
  rw [horder] at hagree
  cases hplaces : AndOrFlow.postOrder g.nodes g.root with
  | error e =>
    rw [hplaces] at hagree
    exact hagree.elim
  | ok places =>
    rw [hplaces] at hagree
    refine ⟨places, hplaces, ?_⟩
    have horderLength : order.toList.length = g.size := hsize.symm
    have hlength : places.toList.length = g.size :=
      (List.Forall₂.length_eq hagree).symm.trans horderLength
    apply List.ext_getElem (by rw [hlength, List.length_range])
    intro i hi hrange
    have hi' : i < order.toList.length := horderLength ▸ hlength ▸ hi
    obtain ⟨place, hplace, hlisted⟩ :=
      Listing.exists_getElem?_of_forall₂ hagree (List.getElem?_eq_getElem hi')
    obtain rfl : place = i := (biUnique_listedAt order).2 hlisted (List.getElem?_eq_getElem hi')
    rw [List.getElem_range]
    exact (List.getElem?_eq_some_iff.mp hplace).2

theorem canonical_of_canonical (h : canonical nodes root b = .ok g) : g.Canonical := by
  obtain ⟨order, -, hmatches, hroot, hbounds, -⟩ := matches_of_canonical h
  obtain ⟨places, hplaces, hlist⟩ := order_of_canonical h
  have hl := listed_of_postOrder hplaces
  have hplace : ∀ id n, g.node? id = some n → places.toList[id]? = some id := by
    intro id n hn
    rw [hlist]
    exact List.getElem?_range (Array.getElem?_eq_some_iff.mp hn).1
  refine ⟨?_, ?_, ?_, ⟨places, hplaces, hlist⟩, ?_⟩
  · intro id n hn
    exact (hl.mem_iff id).mp (Roster.mem_toList.mp (List.mem_of_getElem? (hplace id n hn)))
  · have hlast := hl.last
    rw [hlist, List.getLast?_range] at hlast
    split at hlast
    · cases hlast
    · rename_i hpos
      rw [← Option.some.inj hlast]
      exact Nat.sub_one_add_one hpos
  · intro id n hn source hsource
    have href : RefersTo g.nodes id source := refersTo_iff.mpr ⟨n, hn, hsource⟩
    obtain ⟨earlier, hlt, hearlier⟩ := hl.settled.exists_earlier (hplace id n hn) href
    rw [hlist] at hearlier
    obtain ⟨hrange, heq⟩ := List.getElem?_eq_some_iff.mp hearlier
    rw [List.getElem_range] at heq
    exact heq ▸ hlt
  · rw [hbounds]
    exact hmatches.canonical_eq hroot h

theorem exists_canonical_of_build (h : build b = .ok g) :
    ∃ nodes root, canonical nodes root b = .ok g := by
  have hb : b.defect? = none := by
    cases hdefect : b.defect? with
    | none => rfl
    | some defect =>
      rw [build, hdefect] at h
      cases h
  rw [build_eq hb] at h
  obtain ⟨answer, -, h⟩ := bind_eq_ok_iff.mp h
  cases answer with
  | none => cases h
  | some root =>
    refine ⟨(Cache.empty.resolve b b.domain).2.store.nodes, root, ?_⟩
    rw [conclude] at h
    cases hcanonical : canonical (Cache.empty.resolve b b.domain).2.store.nodes root b with
    | ok g' =>
      rw [hcanonical] at h
      exact congrArg Except.ok (Except.ok.inj h)
    | error e =>
      rw [hcanonical] at h
      cases h

/-- A graph that is built is accepted, and in canonical order. -/
theorem build_canonical (h : build b = .ok g) : g.validate = .ok () ∧ g.Canonical := by
  obtain ⟨nodes, root, hcanonical⟩ := exists_canonical_of_build h
  exact ⟨(proper_of_build h).valid, canonical_of_canonical hcanonical⟩

/-- Leaves of two or three positions; the spans of six that are tried on the way leave one over. -/
theorem build_canonical_seven :
    ∃ g, build { dim := 7, minSize := 2, maxSize := 3 } = .ok g ∧
      g.validate = .ok () ∧ g.Canonical := by
  have hok : (build { dim := 7, minSize := 2, maxSize := 3 }).toOption.isSome = true := by
    decide +kernel
  cases h : build { dim := 7, minSize := 2, maxSize := 3 } with
  | error e => simp [h, Except.toOption] at hok
  | ok g => exact ⟨g, rfl, build_canonical h⟩

end Graph
end AndOrFlow
