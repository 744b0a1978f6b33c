import AndOrFlow.Proofs.Content
import Mathlib.Data.List.Forall2

/-!
# Numbers do not matter

Two node arrays may hold the same graph under different numbers, and besides it nodes that are of no
concern. The walk from related roots visits related nodes in the same order, so renumbering yields
the same nodes, one by one.
-/
namespace AndOrFlow
open Relation

variable {R : NodeId → NodeId → Prop} {nodes others : Array Node} {root start : NodeId}
  {id twin depth fuel : Nat} {path trail : List NodeId} {done listed : Roster NodeId} {b : Bounds}

/-- Related numbers stand for nodes of the same kind and span, whose sources are related one by one;
no number is related to two others. -/
structure Matches (R : NodeId → NodeId → Prop) (nodes others : Array Node) : Prop where
  biUnique : Relator.BiUnique R
  node : ∀ id twin, R id twin → ∃ m n, nodes[id]? = some m ∧ others[twin]? = some n ∧
    m.kind = n.kind ∧ m.span = n.span ∧ List.Forall₂ R m.sources n.sources

theorem place?_eq (hR : Relator.BiUnique R) (hr : R id twin)
    (hdone : List.Forall₂ R done.toList listed.toList) :
    done.place? id = listed.place? twin := by
  ext i
  rw [Roster.place?_eq_some_iff, Roster.place?_eq_some_iff]
  constructor
  · intro hi
    obtain ⟨other, hother, hr'⟩ := Listing.exists_getElem?_of_forall₂ hdone hi
    rw [hother, hR.2 hr' hr]
  · intro hi
    obtain ⟨other, hother, hr'⟩ := Listing.exists_getElem?_of_forall₂ hdone.flip hi
    rw [hother, hR.1 hr' hr]

/-- Two walks list related nodes, or neither lists any. -/
def Agree (R : NodeId → NodeId → Prop) :
    Except GraphError (Roster NodeId) → Except GraphError (Roster NodeId) → Prop
  | .ok done, .ok listed => List.Forall₂ R done.toList listed.toList
  | .error _, .error _ => True
  | _, _ => False

theorem Agree.bind {x y : Except GraphError (Roster NodeId)}
    {f g : Roster NodeId → Except GraphError (Roster NodeId)} (h : Agree R x y)
    (hfg : ∀ done listed, List.Forall₂ R done.toList listed.toList →
      Agree R (f done) (g listed)) : Agree R (x >>= f) (y >>= g) := by
  cases x with
  | ok done =>
    cases y with
    | ok listed => exact hfg done listed h
    | error e => exact h.elim
  | error e =>
    cases y with
    | ok listed => exact h.elim
    | error e' => exact trivial

namespace Matches

theorem lt_size (h : Matches R nodes others) (hr : R id twin) :
    id < nodes.size ∧ twin < others.size := by
  obtain ⟨m, n, hm, hn, -⟩ := h.node id twin hr
  exact ⟨(Array.getElem?_eq_some_iff.mp hm).1, (Array.getElem?_eq_some_iff.mp hn).1⟩

theorem sourcesAt (h : Matches R nodes others) (hr : R id twin) :
    List.Forall₂ R (AndOrFlow.sourcesAt nodes id) (AndOrFlow.sourcesAt others twin) := by
  obtain ⟨m, n, hm, hn, -, -, hsources⟩ := h.node id twin hr
  simpa [AndOrFlow.sourcesAt, hm, hn] using hsources

theorem mem_iff (h : Matches R nodes others) (hr : R id twin)
    (hdone : List.Forall₂ R done.toList listed.toList) : id ∈ done ↔ twin ∈ listed := by
  rw [← Roster.mem_toList, ← Roster.mem_toList]
  exact List.rel_mem h.biUnique hr hdone

theorem add (h : Matches R nodes others) (hr : R id twin)
    (hdone : List.Forall₂ R done.toList listed.toList) :
    List.Forall₂ R (done.add id).toList (listed.add twin).toList := by
  by_cases hid : id ∈ done
  · simpa [hid, (h.mem_iff hr hdone).mp hid] using hdone
  · have htwin := mt (h.mem_iff hr hdone).mpr hid
    simpa [hid, htwin] using List.rel_append hdone (.cons hr .nil)

theorem visitSources {enter follow : NodeId → Roster NodeId → Except GraphError (Roster NodeId)}
    {children twins : List NodeId} (h : Matches R nodes others)
    (henter : ∀ child twin done listed, R child twin → child ∉ path → twin ∉ trail →
      List.Forall₂ R done.toList listed.toList → Agree R (enter child done) (follow twin listed))
    (hpath : List.Forall₂ R path trail) (hchildren : List.Forall₂ R children twins)
    (hdone : List.Forall₂ R done.toList listed.toList) (id twin : NodeId) :
    Agree R (AndOrFlow.visitSources enter nodes.size path id children done)
      (AndOrFlow.visitSources follow others.size trail twin twins listed) := by
  induction hchildren generalizing done listed with
  | nil => exact hdone
  | @cons child other rest twins hr hrest ih =>
    obtain ⟨hchild, hother⟩ := h.lt_size hr
    rw [AndOrFlow.visitSources, AndOrFlow.visitSources, if_neg (Nat.not_le.mpr hchild),
      if_neg (Nat.not_le.mpr hother)]
    by_cases hmem : child ∈ done
    · rw [if_pos hmem, if_pos ((h.mem_iff hr hdone).mp hmem)]
      exact ih hdone
    · have hopen : child ∈ path ↔ other ∈ trail := List.rel_mem h.biUnique hr hpath
      rw [if_neg hmem, if_neg (mt (h.mem_iff hr hdone).mpr hmem)]
      by_cases hcycle : child ∈ path
      · rw [if_pos hcycle, if_pos (hopen.mp hcycle)]
        exact trivial
      · rw [if_neg hcycle, if_neg (mt hopen.mpr hcycle)]
        exact (henter child other done listed hr hcycle (mt hopen.mpr hcycle) hdone).bind
          fun _ _ hmore => ih hmore

end Matches

/-- The nodes being visited are distinct, and as deep as the walk may go there are no more. -/
structure Open (nodes : Array Node) (depth : Nat) (path : List NodeId) (id : NodeId) : Prop where
  nodup : (id :: path).Nodup
  lt_size : ∀ v ∈ id :: path, v < nodes.size
  size_le : nodes.size ≤ depth + path.length

namespace Open

theorem of_root (hroot : root < nodes.size) (hdepth : nodes.size ≤ depth) :
    Open nodes depth [] root where
  nodup := List.nodup_singleton root
  lt_size := by simpa using hroot
  size_le := hdepth

theorem depth_pos (h : Open nodes depth path id) : 0 < depth := by
  have hlength := length_le_of_nodup h.nodup h.lt_size
  have hsize := h.size_le
  rw [List.length_cons] at hlength
  omega

theorem enter {child : NodeId} (h : Open nodes (depth + 1) path id) (hchild : child < nodes.size)
    (hnew : child ∉ id :: path) : Open nodes depth (id :: path) child where
  nodup := List.nodup_cons.mpr ⟨hnew, h.nodup⟩
  lt_size := List.forall_mem_cons.mpr ⟨hchild, h.lt_size⟩
  size_le := by
    have hsize := h.size_le
    rw [List.length_cons]
    omega

end Open

namespace Matches

/-- The depth that is left may differ, as it suffices in either array. -/
theorem visit (h : Matches R nodes others) (hopen : Open nodes depth path id)
    (hopen' : Open others fuel trail twin) (hr : R id twin) (hpath : List.Forall₂ R path trail)
    (hdone : List.Forall₂ R done.toList listed.toList) :
    Agree R (AndOrFlow.visit nodes depth path id done)
      (AndOrFlow.visit others fuel trail twin listed) := by
  induction depth generalizing fuel path trail id twin done listed with
  | zero => exact absurd hopen.depth_pos (Nat.lt_irrefl 0)
  | succ depth ih =>
    obtain ⟨fuel, rfl⟩ := Nat.exists_eq_succ_of_ne_zero (Nat.ne_of_gt hopen'.depth_pos)
    have henter : ∀ child other done listed, R child other → child ∉ id :: path →
        other ∉ twin :: trail → List.Forall₂ R done.toList listed.toList →
        Agree R (AndOrFlow.visit nodes depth (id :: path) child done)
          (AndOrFlow.visit others fuel (twin :: trail) other listed) := by
      intro child other done listed hchild hnew hnew' hmore
      obtain ⟨hlt, hlt'⟩ := h.lt_size hchild
      exact ih (hopen.enter hlt hnew) (hopen'.enter hlt' hnew') hchild (.cons hr hpath) hmore
    exact (h.visitSources henter (.cons hr hpath) (h.sourcesAt hr) hdone id twin).bind
      fun _ _ hmore => h.add hr hmore

theorem postOrder (h : Matches R nodes others) (hr : R root start) :
    Agree R (AndOrFlow.postOrder nodes root) (AndOrFlow.postOrder others start) := by
  obtain ⟨hroot, hstart⟩ := h.lt_size hr
  rw [postOrder_eq_visit hroot, postOrder_eq_visit hstart]
  exact h.visit (Open.of_root hroot (Nat.le_refl _)) (Open.of_root hstart (Nat.le_refl _)) hr .nil
    .nil

end Matches

namespace Matches

variable {order counted : Roster NodeId} {g : Graph}

theorem newId_eq (h : Matches R nodes others) (hr : R id twin)
    (horder : List.Forall₂ R order.toList counted.toList) :
    newId order id = newId counted twin := by
  have hsize : order.size = counted.size := horder.length_eq
  rw [newId, newId, place?_eq h.biUnique hr horder, hsize]

theorem rename_eq (h : Matches R nodes others) (hr : R id twin)
    (horder : List.Forall₂ R order.toList counted.toList) :
    nodes[id]?.map (Node.rename (newId order)) =
      others[twin]?.map (Node.rename (newId counted)) := by
  obtain ⟨m, n, hm, hn, hkind, hspan, hsources⟩ := h.node id twin hr
  rw [hm, hn, Option.map_some, Option.map_some]
  refine congrArg some (Node.eq_of_parts ?_ ?_ ?_)
  · simpa using hkind
  · simpa using hspan
  · rw [Node.sources_rename, Node.sources_rename, ← List.forall₂_eq_eq_eq,
      List.forall₂_map_left_iff, List.forall₂_map_right_iff]
    exact hsources.imp fun source other hsource => h.newId_eq hsource horder

/-- Renumbering what related roots reach yields the same graph. -/
theorem canonical_eq (h : Matches R nodes others) (hr : R root start)
    (hg : Graph.canonical nodes root b = .ok g) : Graph.canonical others start b = .ok g := by
  obtain ⟨order, horder, -⟩ := bind_eq_ok_iff.mp hg
  have hagree := h.postOrder hr
  rw [horder] at hagree
  cases hcounted : AndOrFlow.postOrder others start with
  | error e =>
    rw [hcounted] at hagree
    exact hagree.elim
  | ok counted =>
    rw [hcounted] at hagree
    obtain ⟨g₁, hg₁, hbounds₁, -, hroot₁, hnodes₁⟩ :=
      Graph.canonical_eq (b := b) horder (listed_of_postOrder horder).settled.lt_size
    obtain ⟨g₂, hg₂, hbounds₂, -, hroot₂, hnodes₂⟩ :=
      Graph.canonical_eq (b := b) hcounted (listed_of_postOrder hcounted).settled.lt_size
    obtain rfl : g = g₁ := Except.ok.inj (hg.symm.trans hg₁)
    have hsize : order.size = counted.size := List.Forall₂.length_eq hagree
    have hnodes : g.nodes = g₂.nodes := by
      refine Array.ext_getElem? fun i => (hnodes₁ i).trans (Eq.trans ?_ (hnodes₂ i).symm)
      cases hi : order.toList[i]? with
      | some id =>
        obtain ⟨twin, htwin, hr'⟩ := Listing.exists_getElem?_of_forall₂ hagree hi
        rw [htwin]
        exact h.rename_eq hr' hagree
      | none =>
        have hlength := List.getElem?_eq_none_iff.mp hi
        rw [List.Forall₂.length_eq hagree] at hlength
        rw [List.getElem?_eq_none hlength]
        rfl
    have hroots : g.root = g₂.root := by rw [hroot₁, hroot₂, hsize]
    have hbounds : g.bounds = g₂.bounds := hbounds₁.trans hbounds₂.symm
    cases g
    cases g₂
    simp_all

end Matches

variable {items others : List Item} {c d : Cache}

def SameItem (items others : List Item) (id twin : NodeId) : Prop :=
  ∃ x, items[id]? = some x ∧ others[twin]? = some x

theorem biUnique_sameItem (h : items.Nodup) (h' : others.Nodup) :
    Relator.BiUnique (SameItem items others) := by
  constructor
  · rintro id other twin ⟨x, hx, hx'⟩ ⟨y, hy, hy'⟩
    obtain rfl : x = y := Option.some.inj (hx'.symm.trans hy')
    exact Listing.position_inj h hx hy
  · rintro id twin other ⟨x, hx, hx'⟩ ⟨y, hy, hy'⟩
    obtain rfl : x = y := Option.some.inj (hx.symm.trans hy)
    exact Listing.position_inj h' hx' hy'

theorem forall₂_sameItem {ids twins : List NodeId} {entries : List Item}
    (h : ids.map (fun id => items[id]?) = entries.map some)
    (h' : twins.map (fun id => others[id]?) = entries.map some) :
    List.Forall₂ (SameItem items others) ids twins := by
  induction entries generalizing ids twins with
  | nil =>
    obtain rfl := List.map_eq_nil_iff.mp h
    obtain rfl := List.map_eq_nil_iff.mp h'
    exact .nil
  | cons x entries ih =>
    obtain ⟨id, ids, rfl, hid, hids⟩ := List.map_eq_cons_iff.mp h
    obtain ⟨twin, twins, rfl, htwin, htwins⟩ := List.map_eq_cons_iff.mp h'
    exact .cons ⟨x, hid, htwin⟩ (ih hids htwins)

/-- Two caches hold the same nodes for the items that they share. -/
theorem Cache.Catalog.matches_sameItem (h : Catalog b c items) (h' : Catalog b d others) :
    Matches (SameItem items others) c.store.nodes d.store.nodes where
  biUnique := biUnique_sameItem h.nodup h'.nodup
  node := by
    rintro id twin ⟨x, hx, hx'⟩
    obtain ⟨m, hm, hdepicts⟩ := h.exists_node hx
    obtain ⟨n, hn, hdepicts'⟩ := h'.exists_node hx'
    exact ⟨m, n, hm, hn, hdepicts.kind.trans hdepicts'.kind.symm,
      hdepicts.span.trans hdepicts'.span.symm,
      forall₂_sameItem hdepicts.sources hdepicts'.sources⟩

end AndOrFlow
