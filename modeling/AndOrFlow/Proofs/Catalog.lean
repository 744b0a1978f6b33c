import AndOrFlow.Cache
import AndOrFlow.Proofs.Item

/-!
# What a cache holds

A catalog lists for every stored node the item that it stands for. Resolving a span keeps such a
list, adds to it at the end only, and answers with the position of the item that stands for all
decompositions of the span. Each step of the resolution has one lemma of this form, for any way of
resolving the parts that has it too.
-/
namespace AndOrFlow.Cache
open Bounds
variable {b : Bounds} {c : Cache} {items : List Item} {x : Item} {n : Node} {s : Span}

structure Catalog (b : Bounds) (c : Cache) (items : List Item) : Prop where
  nodup : items.Nodup
  length_eq : items.length = c.store.size
  depicts : ∀ (id : NodeId) (x : Item) (n : Node), items[id]? = some x →
    c.store.node? id = some n → x.Depicts b items n
  legit : ∀ x ∈ items, x.Legit b
  sources_lt : ∀ (id : NodeId) (n : Node), c.store.node? id = some n →
    ∀ source ∈ n.sources, source < id
  /-- Remembered answers are right. -/
  memo : ∀ (s : Span) (answer : Option NodeId), s.Proper → c.lookup? s = some answer →
    answer.map (fun id => items[id]?) = (b.resolution s).map some

theorem intern_cases (c : Cache) (n : Node) :
    (∃ id, (c.store.node? id).map Node.key = some n.key ∧ c.intern n = (id, c)) ∨
      (c.store.idOf? n.key = none ∧ (c.intern n).1 = c.store.size ∧
        (c.intern n).2.store.nodes = c.store.nodes.push n ∧ (c.intern n).2.memo = c.memo) := by
  unfold Cache.intern Store.intern
  split
  · rename_i id h
    exact Or.inl ⟨id, Store.idOf?_eq_some_iff.mp h, rfl⟩
  · rename_i h
    exact Or.inr ⟨h, rfl, rfl, rfl⟩

/-- A proper span whose first cut is a word is resolved without a fault. -/
theorem resolve_of_new (hs : s.Proper) (hlo : s.lo + 1 < Word.limit) (hnew : c.lookup? s = none) :
    resolve b s c = (.ok (resolveSpan b s c).1, (resolveSpan b s c).2) := by
  have hlen : s.length = .ok s.width := Span.length_eq_ok_iff.mpr ⟨hs.le, rfl⟩
  have hcut : s.cutRange = .ok (s.lo + 1, s.hi) := by
    simp [Span.cutRange, Word.add, hlo]
  rw [resolve, hnew, hlen, hcut]

namespace Catalog

theorem empty : Catalog b .empty [] where
  nodup := List.nodup_nil
  length_eq := rfl
  depicts id x n hx _ := by simp at hx
  legit x hx := by simp at hx
  sources_lt id n hn := by simp [Cache.empty, Store.empty, Store.node?] at hn
  memo s answer _ h := by simp [Cache.empty, lookup?] at h

theorem exists_item {id : NodeId} (h : Catalog b c items) (hn : c.store.node? id = some n) :
    ∃ x, items[id]? = some x ∧ x.Depicts b items n := by
  obtain ⟨x, hx⟩ := Listing.exists_entry h.length_eq hn
  exact ⟨x, hx, h.depicts id x n hx hn⟩

theorem exists_node {id : NodeId} (h : Catalog b c items) (hx : items[id]? = some x) :
    ∃ n, c.store.node? id = some n ∧ x.Depicts b items n := by
  obtain ⟨n, hn⟩ := Listing.exists_element h.length_eq hx
  exact ⟨n, hn, h.depicts id x n hx hn⟩

/-- A node whose key is stored stands for an item listed already. -/
theorem item_at {id : NodeId} (h : Catalog b c items) (hx : x.Legit b) (hd : x.Depicts b items n)
    (hkey : (c.store.node? id).map Node.key = some n.key) : items[id]? = some x := by
  obtain ⟨m, hm, hmk⟩ := Option.map_eq_some_iff.mp hkey
  obtain ⟨y, hy, hyd⟩ := h.exists_item hm
  have hly := h.legit y (List.mem_of_getElem? hy)
  rw [hy, hyd.item_eq hly hx hd hmk]

theorem not_mem_of_fresh (h : Catalog b c items) (hd : x.Depicts b items n)
    (hfresh : c.store.idOf? n.key = none) : x ∉ items := by
  intro hx
  obtain ⟨id, hid⟩ := List.mem_iff_getElem?.mp hx
  obtain ⟨m, hm, hmd⟩ := h.exists_node hid
  obtain rfl := hmd.node_eq h.nodup hd
  have := Store.idOf?_eq_some_iff.mpr (by rw [hm]; rfl : (c.store.node? id).map Node.key = some m.key)
  simp [this] at hfresh

theorem push {d : Cache} (h : Catalog b c items) (hx : x.Legit b) (hd : x.Depicts b items n)
    (hnew : x ∉ items) (hnodes : d.store.nodes = c.store.nodes.push n) (hmemo : d.memo = c.memo) :
    Catalog b d (items ++ [x]) := by
  have hpre : items <+: items ++ [x] := List.prefix_append _ _
  have hsize : c.store.nodes.size = items.length := h.length_eq.symm
  refine ⟨?_, ?_, ?_, ?_, ?_, ?_⟩
  · exact List.nodup_append.mpr ⟨h.nodup, List.nodup_singleton x, by grind⟩
  · simp [Store.size, hnodes, hsize]
  · intro id y m hy hm
    simp only [Store.node?, hnodes, Array.getElem?_push, hsize] at hm
    split at hm
    · rename_i hid
      rw [hid, List.getElem?_concat_length] at hy
      cases hy
      cases hm
      exact hd.of_extends hpre
    · rename_i hid
      have hlt := (Array.getElem?_eq_some_iff.mp hm).1
      rw [List.getElem?_append_left (by omega)] at hy
      exact (h.depicts id y m hy hm).of_extends hpre
  · intro y hy
    rcases List.mem_append.mp hy with hy | hy
    · exact h.legit y hy
    · rwa [List.mem_singleton.mp hy]
  · intro id m hm source hsource
    simp only [Store.node?, hnodes, Array.getElem?_push, hsize] at hm
    split at hm
    · rename_i hid
      cases hm
      obtain ⟨y, -, hy⟩ := hd.mem_sources hsource
      exact (List.getElem?_eq_some_iff.mp hy).1.trans_eq hid.symm
    · exact h.sources_lt id m hm source hsource
  · intro s answer hs hlookup
    exact Listing.answer_of_extends hpre (h.memo s answer hs (by rwa [lookup?, hmemo] at hlookup))

theorem intern (h : Catalog b c items) (hx : x.Legit b) (hd : x.Depicts b items n) :
    ∃ more, items <+: more ∧ Catalog b (c.intern n).2 more ∧
      more[(c.intern n).1]? = some x := by
  rcases c.intern_cases n with ⟨id, hkey, heq⟩ | ⟨hfresh, hid, hnodes, hmemo⟩
  · rw [heq]
    exact ⟨items, List.prefix_rfl, h, h.item_at hx hd hkey⟩
  · have hnew := h.not_mem_of_fresh hd hfresh
    refine ⟨items ++ [x], List.prefix_append _ _, h.push hx hd hnew hnodes hmemo, ?_⟩
    rw [hid, ← h.length_eq, List.getElem?_concat_length]

/-- The cache resolves spans of width below `n` with `recur`: the answer is the position of the
item that stands for the span, in a catalog that extends the one before. -/
def Resolves (b : Bounds) (recur : Span → Cache → Option NodeId × Cache) (n : Nat) : Prop :=
  ∀ (s : Span) (c : Cache) (items : List Item), s.Proper → s.width < n → Catalog b c items →
    ∃ more, items <+: more ∧ Catalog b (recur s c).2 more ∧
      (recur s c).1.map (fun id => more[id]?) = (b.resolution s).map some

theorem item_of_answer {id : NodeId}
    (h : (some id).map (fun id => items[id]?) = (b.resolution s).map some) :
    ∃ x, b.resolution s = some x ∧ items[id]? = some x := by
  obtain ⟨x, hx, hitem⟩ := Option.map_eq_some_iff.mp h.symm
  exact ⟨x, hx, hitem.symm⟩

theorem not_tilable_of_answer (hs : s.Proper)
    (h : (none : Option NodeId).map (fun id => items[id]?) = (b.resolution s).map some) :
    ¬ b.Tilable s.width := by
  have hnone : b.resolution s = none := Option.map_eq_none_iff.mp h.symm
  exact (alternatives_eq_nil_iff hs).mp (resolution_eq_none_iff.mp hnone)

theorem leaf (h : Catalog b c items) (s : Span) :
    ∃ more, items <+: more ∧ Catalog b (Cache.leaf b s c).2 more ∧
      (Cache.leaf b s c).1.map (fun id => more[id]?) = (b.leafOf s).map some := by
  unfold Cache.leaf leafOf
  split
  · rename_i hs
    obtain ⟨more, hpre, hmore, hid⟩ :=
      h.intern (x := .leaf s) (n := .terminal s) hs ⟨rfl, rfl, rfl⟩
    exact ⟨more, hpre, hmore, by simpa using hid⟩
  · exact ⟨items, List.prefix_rfl, h, rfl⟩

/-- Where both parts resolve, the node of their nodes stands for the join. -/
theorem depicts_join {k : Nat} {first second : NodeId} (hk : s.lo < k ∧ k < s.hi)
    (hfirst : (some first).map (fun id => items[id]?) = (b.resolution ⟨s.lo, k⟩).map some)
    (hsecond : (some second).map (fun id => items[id]?) = (b.resolution ⟨k, s.hi⟩).map some) :
    b.SplitsAt s k ∧ (Item.join s k).Depicts b items (.and s [first, second]) := by
  obtain ⟨left, hresl, hl⟩ := item_of_answer hfirst
  obtain ⟨right, hresr, hr⟩ := item_of_answer hsecond
  have hleft : (⟨s.lo, k⟩ : Span).Proper := hk.1
  have hright : (⟨k, s.hi⟩ : Span).Proper := hk.2
  refine ⟨⟨tilable_of_resolution hleft hresl, tilable_of_resolution hright hresr⟩, rfl, rfl, ?_⟩
  simp [Node.sources, Item.sources, hresl, hresr, hl, hr]

theorem join {k : Nat} {first second : NodeId} (h : Catalog b c items)
    (hk : s.lo < k ∧ k < s.hi)
    (hfirst : (some first).map (fun id => items[id]?) = (b.resolution ⟨s.lo, k⟩).map some)
    (hsecond : (some second).map (fun id => items[id]?) = (b.resolution ⟨k, s.hi⟩).map some) :
    b.SplitsAt s k ∧ ∃ more, items <+: more ∧
      Catalog b (c.intern (.and s [first, second])).2 more ∧
      more[(c.intern (.and s [first, second])).1]? = some (.join s k) := by
  obtain ⟨hsplit, hd⟩ := depicts_join hk hfirst hsecond
  exact ⟨hsplit, h.intern (x := .join s k) ⟨hk, hsplit⟩ hd⟩

/-- A join is stored exactly if both parts can be filled; the left part decides whether the right
one is looked at. -/
theorem joinAt {recur : Span → Cache → Option NodeId × Cache} {k : Nat}
    (hrec : Resolves b recur s.width) (h : Catalog b c items) (hk : s.lo < k ∧ k < s.hi) :
    ∃ more, items <+: more ∧ Catalog b (Cache.joinAt recur s k c).2 more ∧
      (Cache.joinAt recur s k c).1.map (fun id => more[id]?) =
        (b.joinOf s k).map some := by
  have hleft : (⟨s.lo, k⟩ : Span).Proper := hk.1
  have hright : (⟨k, s.hi⟩ : Span).Proper := hk.2
  obtain ⟨items₁, hpre₁, h₁, hans₁⟩ := hrec _ c items hleft (Span.width_left_lt hk) h
  unfold Cache.joinAt
  split
  · rename_i d heq
    rw [heq] at h₁ hans₁
    have hno : ¬ b.SplitsAt s k := fun hsplit => not_tilable_of_answer hleft hans₁ hsplit.1
    exact ⟨items₁, hpre₁, h₁, by simp [joinOf_of_not_splitsAt hno]⟩
  · rename_i first d heq
    rw [heq] at h₁ hans₁
    obtain ⟨items₂, hpre₂, h₂, hans₂⟩ := hrec _ d items₁ hright (Span.width_right_lt hk) h₁
    split
    · rename_i e heq₂
      rw [heq₂] at h₂ hans₂
      have hno : ¬ b.SplitsAt s k := fun hsplit => not_tilable_of_answer hright hans₂ hsplit.2
      exact ⟨items₂, hpre₁.trans hpre₂, h₂, by simp [joinOf_of_not_splitsAt hno]⟩
    · rename_i second e heq₂
      rw [heq₂] at h₂ hans₂
      obtain ⟨hsplit, more, hpre, hmore, hid⟩ :=
        h₂.join hk (Listing.answer_of_extends hpre₂ hans₁) hans₂
      exact ⟨more, (hpre₁.trans hpre₂).trans hpre, hmore,
        by simpa [joinOf_of_splitsAt hsplit] using hid⟩

theorem joins {recur : Span → Cache → Option NodeId × Cache} {ks : List Nat}
    (hrec : Resolves b recur s.width) (h : Catalog b c items)
    (hks : ∀ k ∈ ks, s.lo < k ∧ k < s.hi) :
    ∃ more, items <+: more ∧ Catalog b (Cache.joins recur s ks c).2 more ∧
      (Cache.joins recur s ks c).1.map (fun id => more[id]?) =
        (ks.filterMap (b.joinOf s)).map some := by
  induction ks generalizing c items with
  | nil => exact ⟨items, List.prefix_rfl, h, rfl⟩
  | cons k ks ih =>
    obtain ⟨items₁, hpre₁, h₁, hans₁⟩ := joinAt hrec h (hks k (by simp))
    obtain ⟨items₂, hpre₂, h₂, hans₂⟩ := ih h₁ fun j hj => hks j (by simp [hj])
    refine ⟨items₂, hpre₁.trans hpre₂, h₂, ?_⟩
    have hfirst := Listing.answer_of_extends hpre₂ hans₁
    have hcons : (k :: ks).filterMap (b.joinOf s) =
        (b.joinOf s k).toList ++ ks.filterMap (b.joinOf s) := by
      cases hk : b.joinOf s k <;> simp [hk]
    rw [Cache.joins, hcons, List.map_append, List.map_append, hans₂, ← Option.toList_map, hfirst,
      Option.toList_map]

theorem choose {ids : List NodeId} (h : Catalog b c items)
    (hids : ids.map (fun id => items[id]?) = (b.alternatives s).map some) :
    ∃ more, items <+: more ∧ Catalog b (Cache.choose b s ids c).2 more ∧
      (Cache.choose b s ids c).1.map (fun id => more[id]?) = (b.resolution s).map some := by
  have hd : (Item.choice s).Depicts b items (.or s ids) := ⟨rfl, rfl, hids⟩
  unfold Cache.choose
  split
  · have hnil : b.alternatives s = [] := by simpa using hids.symm
    exact ⟨items, List.prefix_rfl, h, by simp [resolution_eq_none_iff.mpr hnil]⟩
  · rename_i only
    obtain ⟨x, hx, hitem⟩ : ∃ x, b.alternatives s = [x] ∧ items[only]? = some x := by
      obtain ⟨x, hx, heq⟩ := List.map_eq_singleton_iff.mp hids.symm
      exact ⟨x, hx, heq.symm⟩
    split
    · rename_i hw
      have hlegit : (Item.choice s).Legit b := Or.inr ⟨hw, by simp [hx]⟩
      obtain ⟨more, hpre, hmore, hid⟩ := h.intern hlegit hd
      rw [resolution_eq_some_iff.mpr (Or.inl ⟨rfl, hlegit⟩)]
      exact ⟨more, hpre, hmore, congrArg some hid⟩
    · rename_i hw
      rw [resolution_eq_some_iff.mpr (Or.inr ⟨hx, hw⟩)]
      exact ⟨items, List.prefix_rfl, h, congrArg some hitem⟩
  · rename_i hnil hone
    have hlen : 2 ≤ (b.alternatives s).length := by
      have hlen := congrArg List.length hids
      simp only [List.length_map] at hlen
      rw [← hlen]
      match ids, hnil, hone with
      | [], hnil, _ => exact absurd rfl hnil
      | [id], _, hone => exact absurd rfl (hone id)
      | _ :: _ :: _, _, _ => simp
    obtain ⟨more, hpre, hmore, hid⟩ := h.intern (x := .choice s) (Or.inl hlen) hd
    rw [resolution_eq_some_iff.mpr (Or.inl ⟨rfl, Or.inl hlen⟩)]
    exact ⟨more, hpre, hmore, congrArg some hid⟩

theorem remember {answer : Option NodeId} (h : Catalog b c items)
    (ha : answer.map (fun id => items[id]?) = (b.resolution s).map some) :
    Catalog b (c.remember s answer) items := by
  refine ⟨h.nodup, h.length_eq, h.depicts, h.legit, h.sources_lt, ?_⟩
  intro t other ht hlookup
  simp only [Cache.remember, lookup?, Std.ExtTreeMap.getElem?_insert,
    Std.compare_eq_iff_eq] at hlookup
  split at hlookup
  · rename_i hst
    cases hlookup
    rwa [← hst]
  · exact h.memo t other ht hlookup

theorem resolveStep_of_new {recur : Span → Cache → Option NodeId × Cache}
    (hrec : Resolves b recur s.width) (h : Catalog b c items) (hnew : c.lookup? s = none) :
    ∃ more, items <+: more ∧ Catalog b (Cache.resolveStep b recur s c).2 more ∧
      (Cache.resolveStep b recur s c).1.map (fun id => more[id]?) =
        (b.resolution s).map some := by
  obtain ⟨items₁, hpre₁, h₁, hleaf⟩ := h.leaf s
  obtain ⟨items₂, hpre₂, h₂, hjoins⟩ := joins (s := s) hrec h₁ fun k hk => Span.mem_cuts.mp hk
  have hids : ((Cache.leaf b s c).1 ++
        (Cache.joins recur s s.cuts (Cache.leaf b s c).2).1).map (fun id => items₂[id]?) =
      (b.alternatives s).map some := by
    rw [List.map_append, Listing.map_getElem?_of_extends hpre₂ hleaf, hjoins, alternatives_eq,
      List.map_append]
  obtain ⟨more, hpre, hmore, hans⟩ := h₂.choose hids
  rw [Cache.resolveStep, hnew]
  exact ⟨more, (hpre₁.trans hpre₂).trans hpre, hmore.remember hans, hans⟩

/-- One level of the recursion: the parts of a span are narrower than the span. -/
theorem resolveStep {recur : Span → Cache → Option NodeId × Cache} {width : Nat}
    (hrec : Resolves b recur width) : Resolves b (Cache.resolveStep b recur) (width + 1) := by
  intro s c items hs hw h
  have hparts : Resolves b recur s.width := fun t d more ht htw => hrec t d more ht (by omega)
  cases hlookup : c.lookup? s with
  | some answer =>
    rw [Cache.resolveStep, hlookup]
    exact ⟨items, List.prefix_rfl, h, h.memo s answer hs hlookup⟩
  | none => exact h.resolveStep_of_new hparts hlookup

theorem resolveWithin (n : Nat) : Resolves b (Cache.resolveWithin b n) n := by
  induction n with
  | zero =>
    intro s c items hs hw
    omega
  | succ n ih => exact resolveStep ih

/-- Resolving a proper span whose first cut is a word has no fault and keeps a catalog. -/
theorem resolve (h : Catalog b c items) (hs : s.Proper) (hlo : s.lo + 1 < Word.limit) :
    ∃ answer more, (Cache.resolve b s c).1 = .ok answer ∧ items <+: more ∧
      Catalog b (Cache.resolve b s c).2 more ∧
      answer.map (fun id => more[id]?) = (b.resolution s).map some := by
  cases hlookup : c.lookup? s with
  | some answer =>
    rw [Cache.resolve, hlookup]
    exact ⟨answer, items, rfl, List.prefix_rfl, h, h.memo s answer hs hlookup⟩
  | none =>
    rw [resolve_of_new hs hlo hlookup]
    obtain ⟨more, hpre, hmore, hans⟩ := resolveWithin (s.width + 1) s c items hs (by omega) h
    exact ⟨_, more, rfl, hpre, hmore, hans⟩

end Catalog
end AndOrFlow.Cache
