import AndOrFlow.Proofs.Calls
import Mathlib.Logic.Relation

/-!
# Which spans a cache knows

A new span has the left part of every cut resolved, and the right part where the left one can be
filled. It is remembered after them, so at any time a cache that knows a span knows all that the
span leads to. Nothing else becomes known, hence after some calls the cache knows what the spans
asked for lead to, whatever their order and however often each was asked for.
-/
namespace AndOrFlow
open Relation Bounds

variable {b : Bounds} {c d e : Cache} {items : List Item} {s t : Span} {n : Node} {k : Nat}
  {p q : Span → Prop} {asked more spans : List Span} {answer : Option NodeId} {width : Nat}
  {recur : Span → Cache → Option NodeId × Cache}

namespace Bounds

/-- The spans that a new span has resolved at one cut. -/
def partsAt (b : Bounds) (s : Span) (k : Nat) : List Span :=
  ⟨s.lo, k⟩ :: if b.Tilable (k - s.lo) then [⟨k, s.hi⟩] else []

def parts (b : Bounds) (s : Span) : List Span := s.cuts.flatMap (b.partsAt s)

/-- Resolving the first span leads to the second, possibly over others. -/
abbrev LeadsTo (b : Bounds) : Span → Span → Prop := ReflTransGen fun s t => t ∈ b.parts s

theorem mem_parts_of_mem_partsAt (hk : s.lo < k ∧ k < s.hi) (ht : t ∈ b.partsAt s k) :
    t ∈ b.parts s := List.mem_flatMap.mpr ⟨k, Span.mem_cuts.mpr hk, ht⟩

theorem proper_of_mem_parts (h : t ∈ b.parts s) : t.Proper := by
  obtain ⟨k, hk, ht⟩ := List.mem_flatMap.mp h
  obtain ⟨hlo, hhi⟩ := Span.mem_cuts.mp hk
  rw [partsAt] at ht
  split at ht
  · rcases List.mem_pair.mp ht with rfl | rfl
    · exact hlo
    · exact hhi
  · obtain rfl := List.mem_singleton.mp ht
    exact hlo

theorem LeadsTo.proper (hs : s.Proper) (h : b.LeadsTo s t) : t.Proper := by
  induction h with
  | refl => exact hs
  | tail _ ht _ => exact proper_of_mem_parts ht

end Bounds

namespace Cache

def Knows (c : Cache) (s : Span) : Prop := (c.lookup? s).isSome

def Closed (b : Bounds) (c : Cache) : Prop := ∀ s t, c.Knows s → t ∈ b.parts s → c.Knows t

theorem knows_iff_mem_keys : c.Knows s ↔ s ∈ c.memo.keys := by
  rw [Std.ExtTreeMap.mem_keys, Std.ExtTreeMap.mem_iff_isSome_getElem?]
  rfl

theorem knows_remember : (c.remember s answer).Knows t ↔ t = s ∨ c.Knows t := by
  rw [knows_iff_mem_keys, knows_iff_mem_keys, Std.ExtTreeMap.mem_keys, Std.ExtTreeMap.mem_keys,
    remember, Std.ExtTreeMap.mem_insert, Std.compare_eq_iff_eq, eq_comm]

theorem mem_nodes_intern {m : Node} (h : m ∈ (c.intern n).2.store.nodes) :
    m ∈ c.store.nodes ∨ m = n := by
  rcases c.intern_cases n with ⟨id, -, heq⟩ | ⟨-, -, hnodes, -⟩
  · rw [heq] at h
    exact Or.inl h
  · rw [hnodes] at h
    exact Array.mem_push.mp h

theorem Closed.knows_of_leadsTo (hc : c.Closed b) (hs : c.Knows s) (h : b.LeadsTo s t) :
    c.Knows t := by
  induction h with
  | refl => exact hs
  | tail _ ht ih => exact hc _ _ ih ht

theorem closed_empty : Closed b .empty := fun s t hs => by simp [Knows, empty, lookup?] at hs

/-- From the first cache to the second the spans asked for become known, and all that becomes known
or is stored lies over spans that satisfy `p`. -/
structure Explores (b : Bounds) (p : Span → Prop) (asked : List Span) (c d : Cache) : Prop where
  closed : d.Closed b
  keeps : ∀ t, c.Knows t → d.Knows t
  asked : ∀ t ∈ asked, d.Knows t
  known : ∀ t, d.Knows t → c.Knows t ∨ p t
  stored : ∀ n ∈ d.store.nodes, n ∈ c.store.nodes ∨ p n.span

namespace Explores

theorem refl (hc : c.Closed b) (hasked : ∀ t ∈ asked, c.Knows t) : Explores b p asked c c :=
  ⟨hc, fun _ => id, hasked, fun _ => Or.inl, fun _ => Or.inl⟩

theorem imp (h : Explores b p asked c d) (hpq : ∀ t, p t → q t) : Explores b q asked c d :=
  ⟨h.closed, h.keeps, h.asked, fun t ht => (h.known t ht).imp_right (hpq t),
    fun n hn => (h.stored n hn).imp_right (hpq n.span)⟩

theorem trans (h : Explores b p asked c d) (h' : Explores b p more d e) :
    Explores b p (asked ++ more) c e := by
  refine ⟨h'.closed, fun t ht => h'.keeps t (h.keeps t ht), ?_, ?_, ?_⟩
  · intro t ht
    rcases List.mem_append.mp ht with ht | ht
    · exact h'.keeps t (h.asked t ht)
    · exact h'.asked t ht
  · intro t ht
    rcases h'.known t ht with ht | ht
    · exact h.known t ht
    · exact Or.inr ht
  · intro n hn
    rcases h'.stored n hn with hn | hn
    · exact h.stored n hn
    · exact Or.inr hn

theorem intern (hc : c.Closed b) (hn : p n.span) : Explores b p [] c (c.intern n).2 := by
  refine ⟨hc, fun _ => id, by simp, fun _ => Or.inl, fun m hm => ?_⟩
  rcases mem_nodes_intern hm with hm | rfl
  · exact Or.inl hm
  · exact Or.inr hn

/-- A span is remembered when its parts are known. -/
theorem remember (h : Explores b p (b.parts s) c d) (hs : p s) :
    Explores b p [s] c (d.remember s answer) := by
  refine ⟨?_, ?_, ?_, ?_, h.stored⟩
  · intro r t hr ht
    rw [knows_remember] at hr ⊢
    rcases hr with rfl | hr
    · exact Or.inr (h.asked t ht)
    · exact Or.inr (h.closed r t hr ht)
  · exact fun t ht => knows_remember.mpr (Or.inr (h.keeps t ht))
  · intro t ht
    exact knows_remember.mpr (Or.inl (List.mem_singleton.mp ht))
  · intro t ht
    rcases knows_remember.mp ht with rfl | ht
    · exact Or.inr hs
    · exact h.known t ht

theorem leaf (hc : c.Closed b) (hs : p s) : Explores b p [] c (Cache.leaf b s c).2 := by
  unfold Cache.leaf
  split
  · exact intern hc hs
  · exact refl hc (by simp)

theorem choose {ids : List NodeId} (hc : c.Closed b) (hs : p s) :
    Explores b p [] c (Cache.choose b s ids c).2 := by
  unfold Cache.choose
  split
  · exact refl hc (by simp)
  · split
    · exact intern hc hs
    · exact refl hc (by simp)
  · exact intern hc hs

end Explores

/-- Spans of width below `width` are explored by `recur`. -/
def Looks (b : Bounds) (recur : Span → Cache → Option NodeId × Cache) (width : Nat) : Prop :=
  ∀ (s : Span) (c : Cache) (items : List Item), s.Proper → s.width < width → Catalog b c items →
    c.Closed b → Explores b (b.LeadsTo s) [s] c (recur s c).2

namespace Looks

/-- The right part is looked at exactly if the left one can be filled. -/
theorem joinAt (hlooks : Looks b recur s.width) (hrec : Catalog.Resolves b recur s.width)
    (h : Catalog b c items) (hc : c.Closed b) (hk : s.lo < k ∧ k < s.hi) :
    Explores b (b.LeadsTo s) (b.partsAt s k) c (Cache.joinAt recur s k c).2 := by
  have hleft : (⟨s.lo, k⟩ : Span).Proper := hk.1
  have hright : (⟨k, s.hi⟩ : Span).Proper := hk.2
  have hwl := Span.width_left_lt hk
  have hpart : ∀ r ∈ b.partsAt s k, ∀ t, b.LeadsTo r t → b.LeadsTo s t :=
    fun r hr t ht => .head (mem_parts_of_mem_partsAt hk hr) ht
  obtain ⟨items₁, -, h₁, hans₁⟩ := hrec _ c items hleft hwl h
  have hexp₁ := (hlooks _ c items hleft hwl h hc).imp (hpart _ (List.mem_cons_self ..))
  have htilable := Catalog.isSome_iff_tilable hleft hans₁
  unfold Cache.joinAt
  split
  · rename_i d heq
    rw [heq] at hexp₁ htilable
    have hno : ¬ b.Tilable (k - s.lo) := fun hyes => by simpa using htilable.mpr hyes
    rw [partsAt, if_neg hno]
    exact hexp₁
  · rename_i first d heq
    rw [heq] at h₁ hexp₁ htilable
    have hyes : b.Tilable (k - s.lo) := htilable.mp rfl
    have hparts : b.partsAt s k = [⟨s.lo, k⟩] ++ [⟨k, s.hi⟩] := by
      rw [partsAt, if_pos hyes, List.singleton_append]
    have hexp₂ := (hlooks _ d items₁ hright (Span.width_right_lt hk) h₁ hexp₁.closed).imp
      (hpart _ (by simp [hparts]))
    rw [hparts]
    split
    · rename_i f heq₂
      rw [heq₂] at hexp₂
      exact hexp₁.trans hexp₂
    · rename_i second f heq₂
      rw [heq₂] at hexp₂
      simpa using (hexp₁.trans hexp₂).trans (.intern hexp₂.closed .refl)

theorem joins {ks : List Nat} (hlooks : Looks b recur s.width)
    (hrec : Catalog.Resolves b recur s.width) (h : Catalog b c items) (hc : c.Closed b)
    (hks : ∀ k ∈ ks, s.lo < k ∧ k < s.hi) :
    Explores b (b.LeadsTo s) (ks.flatMap (b.partsAt s)) c (Cache.joins recur s ks c).2 := by
  induction ks generalizing c items with
  | nil => exact .refl hc (by simp)
  | cons k ks ih =>
    obtain ⟨hk, hks⟩ := List.forall_mem_cons.mp hks
    obtain ⟨items₁, -, h₁, -⟩ := Catalog.joinAt hrec h hk
    have hfirst := hlooks.joinAt hrec h hc hk
    exact hfirst.trans (ih h₁ hfirst.closed hks)

theorem resolveStep_of_new (hlooks : Looks b recur s.width)
    (hrec : Catalog.Resolves b recur s.width) (h : Catalog b c items) (hc : c.Closed b)
    (hnew : c.lookup? s = none) :
    Explores b (b.LeadsTo s) [s] c (Cache.resolveStep b recur s c).2 := by
  obtain ⟨items₁, -, h₁, -⟩ := h.leaf s
  have hleaf : Explores b (b.LeadsTo s) [] c (Cache.leaf b s c).2 := .leaf hc .refl
  have hjoins : Explores b (b.LeadsTo s) (b.parts s) (Cache.leaf b s c).2
      (Cache.joins recur s s.cuts (Cache.leaf b s c).2).2 :=
    hlooks.joins hrec h₁ hleaf.closed fun k hk => Span.mem_cuts.mp hk
  rw [Cache.resolveStep, hnew]
  exact .remember (by simpa using (hleaf.trans hjoins).trans (.choose hjoins.closed .refl)) .refl

theorem resolveStep (hlooks : Looks b recur width) (hrec : Catalog.Resolves b recur width) :
    Looks b (Cache.resolveStep b recur) (width + 1) := by
  intro s c items hs hw h hc
  have hparts : Catalog.Resolves b recur s.width :=
    fun t d more ht htw => hrec t d more ht (by omega)
  have hlook : Looks b recur s.width := fun t d more ht htw => hlooks t d more ht (by omega)
  cases hlookup : c.lookup? s with
  | some answer =>
    rw [Cache.resolveStep, hlookup]
    exact .refl hc (by simp [Knows, hlookup])
  | none => exact hlook.resolveStep_of_new hparts h hc hlookup

theorem resolveWithin (width : Nat) : Looks b (Cache.resolveWithin b width) width := by
  induction width with
  | zero =>
    intro s c items hs hw
    omega
  | succ width ih => exact ih.resolveStep (Catalog.resolveWithin width)

end Looks

namespace Catalog

theorem resolve_explores (h : Catalog b c items) (hc : c.Closed b) (hs : s.Regular) :
    Explores b (b.LeadsTo s) [s] c (Cache.resolve b s c).2 := by
  cases hlookup : c.lookup? s with
  | some answer =>
    rw [Cache.resolve, hlookup]
    exact .refl hc (by simp [Knows, hlookup])
  | none =>
    rw [resolve_of_new hs.1 hs.lo_lt hlookup]
    exact Looks.resolveWithin (s.width + 1) s c items hs.1 (by omega) h hc

theorem resolveEach_explores (h : Catalog b c items) (hc : c.Closed b)
    (hs : ∀ s ∈ spans, s.Regular) :
    Explores b (fun t => ∃ s ∈ spans, b.LeadsTo s t) spans c (resolveEach b spans c).2 := by
  induction spans generalizing c items with
  | nil => exact .refl hc (by simp)
  | cons s rest ih =>
    obtain ⟨hfirst, hrest⟩ := List.forall_mem_cons.mp hs
    obtain ⟨items₁, -, h₁, -⟩ := h.resolve_answers hfirst
    have hexp := h.resolve_explores hc hfirst
    refine (hexp.imp ?_).trans ((ih h₁ hexp.closed hrest).imp ?_)
    · exact fun t ht => ⟨s, List.mem_cons_self .., ht⟩
    · rintro t ⟨r, hr, ht⟩
      exact ⟨r, List.mem_cons_of_mem _ hr, ht⟩

end Catalog
end Cache
end AndOrFlow
