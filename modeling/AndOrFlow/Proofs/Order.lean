import AndOrFlow.Proofs.Exploration
import AndOrFlow.Proofs.Form
import Mathlib.Data.List.Perm.Basic

/-!
# Spans in any order

After some calls a cache holds the items over the spans that those asked for lead to. So neither the
order of the calls nor a repetition makes a difference to what is remembered and stored, up to the
numbers of the nodes.
-/
namespace AndOrFlow
open Bounds

variable {b : Bounds} {c : Cache} {items : List Item} {x : Item} {s : Span}
  {spans others : List Span} {answer : Option NodeId}

/-- What stands for the span of an item is the item itself or the choice that lists it. -/
theorem Item.resolution_of_legit (hx : x.Legit b) : b.resolution x.span = some x ∨
    (b.resolution x.span = some (.choice x.span) ∧ x ∈ b.alternatives x.span) := by
  have hlisted : x ∈ b.alternatives x.span → b.resolution x.span = some x ∨
      (b.resolution x.span = some (.choice x.span) ∧ x ∈ b.alternatives x.span) := by
    intro hmem
    cases hres : b.resolution x.span with
    | none => simp [resolution_eq_none_iff.mp hres] at hmem
    | some y =>
      rcases resolution_eq_some_iff.mp hres with ⟨rfl, -⟩ | ⟨hone, -⟩
      · exact Or.inr ⟨rfl, hmem⟩
      · rw [hone, List.mem_singleton] at hmem
        exact Or.inl (congrArg some hmem.symm)
  cases x with
  | leaf s => exact hlisted (leaf_mem_alternatives.mpr hx)
  | join s k => exact hlisted (join_mem_alternatives.mpr hx)
  | choice s => exact Or.inl (resolution_eq_some_iff.mpr (Or.inl ⟨rfl, hx⟩))

namespace Cache

theorem memoized_eq_of_knows_iff {d : Cache} (h : ∀ s, c.Knows s ↔ d.Knows s) :
    c.memoized = d.memoized := by
  have hperm : c.memo.keys.Perm d.memo.keys := by
    rw [List.perm_ext_iff_of_nodup Std.ExtTreeMap.nodup_keys Std.ExtTreeMap.nodup_keys]
    intro s
    rw [← knows_iff_mem_keys, ← knows_iff_mem_keys, h]
  rw [memoized, memoized, ← Std.ExtTreeMap.length_keys, ← Std.ExtTreeMap.length_keys,
    hperm.length_eq]

namespace Catalog

theorem mem_of_knows (h : Catalog b c items) (hproper : x.span.Proper) (hknown : c.Knows x.span)
    (hx : x.Legit b) : x ∈ items := by
  obtain ⟨answer, hanswer⟩ := Option.isSome_iff_exists.mp hknown
  have hmemo := h.memo x.span answer hproper hanswer
  rcases Item.resolution_of_legit hx with hres | ⟨hres, hmem⟩
  · rw [hres] at hmemo
    obtain ⟨id, -, hid⟩ := Option.map_eq_some_iff.mp hmemo
    exact List.mem_of_getElem? hid
  · rw [hres] at hmemo
    obtain ⟨id, -, hid⟩ := Option.map_eq_some_iff.mp hmemo
    obtain ⟨n, -, hdepicts⟩ := h.exists_node hid
    obtain ⟨source, -, hsource⟩ := Listing.exists_of_mem_entries hdepicts.sources hmem
    exact List.mem_of_getElem? hsource

/-- A known span is answered as before, and nothing changes. -/
theorem resolve_of_knows (h : Catalog b c items) (hs : s.Proper) (hknown : c.Knows s)
    (hanswer : answer.map (fun id => items[id]?) = (b.resolution s).map some) :
    Cache.resolve b s c = (.ok answer, c) := by
  obtain ⟨reply, hreply⟩ := Option.isSome_iff_exists.mp hknown
  obtain rfl := Listing.answer_inj h.nodup hanswer (h.memo s reply hs hreply)
  rw [Cache.resolve, hreply]

theorem span_of_answer {id : NodeId} (h : Catalog b c items)
    (hanswer : (some id).map (fun id => items[id]?) = (b.resolution s).map some) :
    ∃ n, c.store.node? id = some n ∧ n.span = s := by
  obtain ⟨x, hres, hx⟩ := item_of_answer hanswer
  obtain ⟨n, hn, hdepicts⟩ := h.exists_node hx
  exact ⟨n, hn, hdepicts.span.trans (span_of_resolution hres)⟩

end Catalog

/-- The cache holds what the spans lead to, and these were answered with the results. -/
structure Holds (b : Bounds) (spans : List Span) (items : List Item)
    (after : List (Checked (Option NodeId)) × Cache) : Prop where
  catalog : Catalog b after.2 items
  answers : List.Forall₂ (Answers b items) spans after.1
  knows_iff : ∀ t, after.2.Knows t ↔ ∃ s ∈ spans, b.LeadsTo s t
  mem_iff : ∀ x, x ∈ items ↔ x.Legit b ∧ ∃ s ∈ spans, b.LeadsTo s x.span

theorem exists_holds (hs : ∀ s ∈ spans, s.Regular) :
    ∃ items, Holds b spans items (resolveEach b spans .empty) := by
  obtain ⟨items, -, hcatalog, hanswers⟩ := Catalog.empty.resolveEach_answers (b := b) hs
  have hexp := Catalog.empty.resolveEach_explores closed_empty (b := b) hs
  have hknows : ∀ t, (resolveEach b spans .empty).2.Knows t ↔ ∃ s ∈ spans, b.LeadsTo s t := by
    intro t
    constructor
    · intro ht
      exact (hexp.known t ht).resolve_left (by simp [Knows, empty, lookup?])
    · rintro ⟨s, hmem, hleads⟩
      exact hexp.closed.knows_of_leadsTo (hexp.asked s hmem) hleads
  refine ⟨items, hcatalog, hanswers, hknows, fun x => ⟨fun hx => ?_, ?_⟩⟩
  · obtain ⟨id, hid⟩ := List.mem_iff_getElem?.mp hx
    obtain ⟨n, hn, hdepicts⟩ := hcatalog.exists_node hid
    refine ⟨hcatalog.legit x hx, ?_⟩
    rw [← hdepicts.span]
    exact (hexp.stored n (Array.mem_of_getElem? hn)).resolve_left (by simp [empty, Store.empty])
  · rintro ⟨hlegit, s, hmem, hleads⟩
    have hproper := hleads.proper (hs s hmem).1
    exact hcatalog.mem_of_knows hproper ((hknows _).mpr ⟨s, hmem, hleads⟩) hlegit

/-- Of two sequences of calls on empty caches, both leave as many answers and nodes behind, and what
they get for the same span unfolds to the same. -/
structure SameEffect (b : Bounds) (spans others : List Span) : Prop where
  memoized_eq : (resolveEach b spans .empty).2.memoized = (resolveEach b others .empty).2.memoized
  interned_eq : (resolveEach b spans .empty).2.interned = (resolveEach b others .empty).2.interned
  sameForm : ∀ (i j : Nat) (s : Span), spans[i]? = some s → others[j]? = some s →
    ∃ answer reply, (resolveEach b spans .empty).1[i]? = some (.ok answer) ∧
      (resolveEach b others .empty).1[j]? = some (.ok reply) ∧
      SameForm (resolveEach b spans .empty).2.store.nodes
        (resolveEach b others .empty).2.store.nodes answer reply

/-- An answer that is a node is one over the span asked for, and to ask again changes nothing. -/
structure Lasting (b : Bounds) (spans : List Span) : Prop where
  again : ∀ (i : Nat) (s : Span), spans[i]? = some s →
    ∃ answer, (resolveEach b spans .empty).1[i]? = some (.ok answer) ∧
      resolve b s (resolveEach b spans .empty).2 = (.ok answer, (resolveEach b spans .empty).2)
  span_eq : ∀ (i : Nat) (s : Span) (id : NodeId), spans[i]? = some s →
    (resolveEach b spans .empty).1[i]? = some (.ok (some id)) →
      ∃ n, (resolveEach b spans .empty).2.store.node? id = some n ∧ n.span = s

theorem Holds.answers_at {after : List (Checked (Option NodeId)) × Cache} {i : Nat}
    (h : Holds b spans items after) (hi : spans[i]? = some s) :
    ∃ answer, after.1[i]? = some (.ok answer) ∧
      answer.map (fun id => items[id]?) = (b.resolution s).map some := by
  obtain ⟨_, hresult, answer, rfl, hanswer⟩ := Listing.exists_getElem?_of_forall₂ h.answers hi
  exact ⟨answer, hresult, hanswer⟩

theorem sameEffect (hregular : ∀ s ∈ spans, s.Regular) (hsub : spans ⊆ others)
    (hsup : others ⊆ spans) : SameEffect b spans others := by
  have hsame : ∀ t, (∃ s ∈ spans, b.LeadsTo s t) ↔ ∃ s ∈ others, b.LeadsTo s t := by
    intro t
    constructor
    · rintro ⟨s, hs, ht⟩
      exact ⟨s, hsub hs, ht⟩
    · rintro ⟨s, hs, ht⟩
      exact ⟨s, hsup hs, ht⟩
  obtain ⟨items, h⟩ := exists_holds (b := b) hregular
  obtain ⟨items', h'⟩ := exists_holds (b := b) fun s hs => hregular s (hsup hs)
  refine ⟨?_, ?_, ?_⟩
  · apply memoized_eq_of_knows_iff
    intro t
    rw [h.knows_iff, h'.knows_iff, hsame]
  · have hperm : items.Perm items' := by
      rw [List.perm_ext_iff_of_nodup h.catalog.nodup h'.catalog.nodup]
      intro x
      rw [h.mem_iff, h'.mem_iff, hsame]
    rw [interned, interned, ← h.catalog.length_eq, ← h'.catalog.length_eq, hperm.length_eq]
  · intro i j s hi hj
    obtain ⟨answer, hresult, hanswer⟩ := h.answers_at hi
    obtain ⟨reply, hresult', hreply⟩ := h'.answers_at hj
    exact ⟨answer, reply, hresult, hresult', h.catalog.sameForm h'.catalog hanswer hreply⟩

theorem lasting (hregular : ∀ s ∈ spans, s.Regular) : Lasting b spans := by
  obtain ⟨items, h⟩ := exists_holds (b := b) hregular
  constructor
  · intro i s hi
    obtain ⟨answer, hresult, hanswer⟩ := h.answers_at hi
    have hs := List.mem_of_getElem? hi
    have hknown := (h.knows_iff s).mpr ⟨s, hs, .refl⟩
    exact ⟨answer, hresult, h.catalog.resolve_of_knows (hregular s hs).1 hknown hanswer⟩
  · intro i s id hi hid
    obtain ⟨answer, hresult, hanswer⟩ := h.answers_at hi
    obtain rfl := Except.ok.inj (Option.some.inj (hresult.symm.trans hid))
    exact h.catalog.span_of_answer hanswer

/-- What a cache is asked for decides what it holds: the order of the calls and repetitions make no
difference, and an answer is there to stay. -/
theorem resolveEach_order (b : Bounds) (spans others : List Span)
    (hregular : ∀ s ∈ spans, s.Regular) (hsub : spans ⊆ others) (hsup : others ⊆ spans) :
    SameEffect b spans others ∧ Lasting b spans :=
  ⟨sameEffect hregular hsub hsup, lasting hregular⟩

/-- Leaves of two or three positions; the span of one position has no answer. -/
theorem resolveEach_order_six :
    (∀ s ∈ [⟨0, 6⟩, ⟨1, 5⟩, ⟨2, 3⟩], Span.Regular s) ∧
      SameEffect { dim := 6, minSize := 2, maxSize := 3 } [⟨0, 6⟩, ⟨1, 5⟩, ⟨2, 3⟩]
        [⟨2, 3⟩, ⟨1, 5⟩, ⟨0, 6⟩, ⟨1, 5⟩] ∧
      Lasting { dim := 6, minSize := 2, maxSize := 3 } [⟨0, 6⟩, ⟨1, 5⟩, ⟨2, 3⟩] := by
  have hregular : ∀ s ∈ [⟨0, 6⟩, ⟨1, 5⟩, ⟨2, 3⟩], Span.Regular s := by decide
  exact ⟨hregular, resolveEach_order _ _ _ hregular (by simp) (by simp)⟩

end Cache
end AndOrFlow
