import AndOrFlow.Proofs.Acceptance
import AndOrFlow.Proofs.Form

/-!
# Equal nodes are stored once

The key of an and-node or an or-node tells its sources and not its span. That suffices: sources are
stored before, and what they cover tells what the node covers. So no two stored nodes unfold to the
same, not even to forms that differ in the order of alternatives, and a node that stands for an item
is found again only as itself.
-/
namespace AndOrFlow
open Bounds

/-- The forms agree on their leaves and on how these are put together; neither the spans of other
nodes nor the order of alternatives matter. -/
inductive Form.Similar : Form → Form → Prop
  | terminal (s : Span) (forms others : List Form) :
      Similar (.node .terminal s forms) (.node .terminal s others)
  | and (s t : Span) {forms others : List Form} (h : List.Forall₂ Similar forms others) :
      Similar (.node .and s forms) (.node .and t others)
  | or (s t : Span) {forms others arranged : List Form} (h : List.Forall₂ Similar forms arranged)
      (hperm : arranged.Perm others) : Similar (.node .or s forms) (.node .or t others)

mutual

theorem Form.similar_refl : ∀ form : Form, Form.Similar form form
  | .node .terminal s forms => .terminal s forms forms
  | .node .and s forms => .and s s (forall₂_similar forms)
  | .node .or s forms => .or s s (forall₂_similar forms) (.refl _)

theorem Form.forall₂_similar : ∀ forms : List Form, List.Forall₂ Similar forms forms
  | [] => .nil
  | form :: rest => .cons form.similar_refl (forall₂_similar rest)

end

theorem haveForms_iff {nodes : Array Node} {ids : List NodeId} {forms : List Form} :
    HaveForms nodes ids forms ↔ List.Forall₂ (HasForm nodes) ids forms := by
  constructor
  · intro h
    induction ids generalizing forms with
    | nil =>
      cases h
      exact .nil
    | cons id rest ih =>
      cases h with
      | cons h hrest => exact .cons h (ih hrest)
  · intro h
    induction h with
    | nil => exact .nil
    | cons h _ ih => exact .cons h ih

theorem Node.key_or_eq {s t : Span} {ids others : List NodeId} (h : ids.Perm others) :
    (Node.or s ids).key = (Node.or t others).key := by
  refine congrArg Key.or (Sorting.sort_eq_of_perm ?_ ?_ ?_ h)
  · simpa using Nat.le_total
  · simpa using fun a b c hab hbc => Nat.le_trans (n := a) hab hbc
  · simpa using fun a b hab hba => Nat.le_antisymm hab hba

namespace Store

variable {store : Store} {id twin : NodeId} {ids twins : List NodeId} {m n : Node}
  {form other : Form} {forms arranged : List Form}

theorem id_eq_of_key_eq (hm : store.node? id = some m) (hn : store.node? twin = some n)
    (hkey : m.key = n.key) : id = twin := by
  have hid : store.idOf? m.key = some id := idOf?_eq_some_iff.mpr (by rw [hm, Option.map_some])
  have htwin : store.idOf? n.key = some twin := idOf?_eq_some_iff.mpr (by rw [hn, Option.map_some])
  rw [hkey, htwin] at hid
  exact (Option.some.inj hid).symm

/-- No other stored node unfolds to a form that is similar to that of `id`. -/
def Unlike (store : Store) (id : NodeId) : Prop :=
  ∀ twin form other, HasForm store.nodes id form → HasForm store.nodes twin other →
    form.Similar other → id = twin

theorem eq_of_forall₂_similar (hunlike : ∀ id ∈ ids, store.Unlike id)
    (h : List.Forall₂ (HasForm store.nodes) ids forms)
    (hsimilar : List.Forall₂ Form.Similar forms arranged)
    (h' : List.Forall₂ (HasForm store.nodes) twins arranged) : ids = twins := by
  induction h generalizing arranged twins with
  | nil =>
    cases hsimilar
    cases h'
    rfl
  | cons hform _ ih =>
    obtain ⟨hfirst, hrest⟩ := List.forall_mem_cons.mp hunlike
    cases hsimilar with
    | cons hs hsimilar =>
      cases h' with
      | cons hform' h' => rw [hfirst _ _ _ hform hform' hs, ih hrest hsimilar h']

/-- Where references lead to earlier nodes, no two nodes unfold to similar forms. -/
theorem unlike (hlt : ∀ (id : NodeId) (n : Node), store.node? id = some n →
    ∀ source ∈ n.sources, source < id) (id : NodeId) : store.Unlike id := by
  induction id using Nat.strongRecOn with
  | _ id ih =>
    rintro twin form other ⟨hm, hforms⟩ ⟨hn, hothers⟩ hsimilar
    rename_i m forms n others
    have hunlike : ∀ source ∈ m.sources, store.Unlike source := fun source hsource =>
      ih source (hlt id m hm source hsource)
    rw [haveForms_iff] at hforms hothers
    refine id_eq_of_key_eq hm hn ?_
    cases m with
    | terminal s =>
      cases n with
      | terminal t =>
        cases hsimilar
        rfl
      | and | or => cases hsimilar
    | and s children =>
      cases n with
      | and t siblings =>
        cases hsimilar with
        | and _ _ hsame =>
          exact congrArg Key.and (eq_of_forall₂_similar hunlike hforms hsame hothers)
      | terminal | or => cases hsimilar
    | or s alternatives =>
      cases n with
      | or t choices =>
        cases hsimilar with
        | or _ _ hsame hperm =>
          obtain ⟨arranged, harranged, hsources⟩ :=
            List.perm_comp_forall₂ hperm (List.Forall₂.flip hothers)
          obtain rfl := eq_of_forall₂_similar hunlike hforms hsame harranged.flip
          exact Node.key_or_eq hsources
      | terminal | and => cases hsimilar

def Covers (store : Store) (id : NodeId) (s : Span) : Prop :=
  ∃ n, store.node? id = some n ∧ n.span = s

structure HashConsed (store : Store) : Prop where
  /-- A key leads to the node that has it, and to nothing else. -/
  idOf?_eq_some_iff : ∀ k id, store.idOf? k = some id ↔ (store.node? id).map Node.key = some k
  sources_lt : ∀ (id : NodeId) (n : Node), store.node? id = some n →
    ∀ source ∈ n.sources, source < id
  /-- Every stored node unfolds to one form. -/
  existsUnique_form : ∀ id < store.size, ∃! form, HasForm store.nodes id form
  /-- Different nodes do not unfold to the same form. -/
  form_inj : ∀ id twin form, HasForm store.nodes id form → HasForm store.nodes twin form → id = twin
  unlike : ∀ id, store.Unlike id
  and_tiled : ∀ id s children, store.node? id = some (.and s children) →
    ∃ k first second, (s.lo < k ∧ k < s.hi) ∧ children = [first, second] ∧
      store.Covers first ⟨s.lo, k⟩ ∧ store.Covers second ⟨k, s.hi⟩
  or_over : ∀ id s alternatives, store.node? id = some (.or s alternatives) →
    alternatives ≠ [] ∧ alternatives.Nodup ∧
      ∀ a ∈ alternatives, ∃ n, store.node? a = some n ∧ n.kind ≠ .or ∧ n.span = s

end Store

namespace Cache.Catalog

variable {b : Bounds} {c : Cache} {items : List Item} {n : Node} {x : Item} {id : NodeId} {s : Span}
  {ids : List NodeId}

theorem covers_of_resolution (h : Catalog b c items) (hx : b.resolution s = some x)
    (hid : items[id]? = some x) : c.store.Covers id s := by
  obtain ⟨n, hn, hd⟩ := h.exists_node hid
  exact ⟨n, hn, hd.span.trans (span_of_resolution hx)⟩

theorem and_tiled (h : Catalog b c items) (hn : c.store.node? id = some (.and s ids)) :
    ∃ k first second, (s.lo < k ∧ k < s.hi) ∧ ids = [first, second] ∧
      c.store.Covers first ⟨s.lo, k⟩ ∧ c.store.Covers second ⟨k, s.hi⟩ := by
  obtain ⟨x, hx, hd⟩ := h.exists_item hn
  have hlegit := h.legit x (List.mem_of_getElem? hx)
  cases x with
  | join t k =>
    obtain ⟨first, second, left, right, heq, hfirst, hleft, hsecond, hright⟩ :=
      Graph.Shows.sources_join hlegit hd
    cases heq
    exact ⟨k, first, second, hlegit.1, rfl, h.covers_of_resolution hleft hfirst,
      h.covers_of_resolution hright hsecond⟩
  | leaf | choice => cases hd.kind

theorem or_over (h : Catalog b c items) (hn : c.store.node? id = some (.or s ids)) :
    ids ≠ [] ∧ ids.Nodup ∧
      ∀ a ∈ ids, ∃ n, c.store.node? a = some n ∧ n.kind ≠ .or ∧ n.span = s := by
  obtain ⟨x, hx, hd⟩ := h.exists_item hn
  have hlegit := h.legit x (List.mem_of_getElem? hx)
  cases x with
  | choice t =>
    obtain rfl : s = t := hd.span
    have hsources : ids.map (fun id => items[id]?) = (b.alternatives s).map some := hd.sources
    refine ⟨?_, ?_, fun a ha => ?_⟩
    · rintro rfl
      exact Item.alternatives_ne_nil hlegit (List.map_eq_nil_iff.mp hsources.symm)
    · refine List.Nodup.of_map (fun id => items[id]?) ?_
      rw [hsources]
      exact (nodup_alternatives b s).map (Option.some_injective _)
    · obtain ⟨y, hy, hitem⟩ := hd.mem_sources ha
      obtain ⟨n, hn, hdn⟩ := h.exists_node hitem
      exact ⟨n, hn, hdn.kind ▸ Item.kind_of_mem_alternatives hy,
        hdn.span.trans (span_of_mem_alternatives hy)⟩
  | leaf | join => cases hd.kind

theorem hashConsed (h : Catalog b c items) : c.store.HashConsed where
  idOf?_eq_some_iff _ _ := Store.idOf?_eq_some_iff
  sources_lt := h.sources_lt
  existsUnique_form id hid := by
    obtain ⟨form, hform⟩ := exists_hasForm h.sources_lt hid
    exact ⟨form, hform, fun other hother => hother.unique hform⟩
  form_inj id twin form hform hother :=
    Store.unlike h.sources_lt id twin form form hform hother form.similar_refl
  unlike := Store.unlike h.sources_lt
  and_tiled _ _ _ := h.and_tiled
  or_over _ _ _ := h.or_over

/-- A node that stands for an item is found as it is, or stored as it is. -/
theorem node?_intern (h : Catalog b c items) (hx : x.Legit b) (hd : x.Depicts b items n) :
    (c.intern n).2.store.node? (c.intern n).1 = some n := by
  obtain ⟨more, hpre, hmore, hid⟩ := h.intern hx hd
  obtain ⟨m, hm, hdm⟩ := hmore.exists_node hid
  rw [hm, hdm.node_eq hmore.nodup (hd.of_extends hpre)]

end Cache.Catalog
end AndOrFlow
