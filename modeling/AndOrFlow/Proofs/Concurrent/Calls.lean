import AndOrFlow.Proofs.Calls
import AndOrFlow.Proofs.Concurrent.Sound
import AndOrFlow.Proofs.Sharing

/-!
# Calls on one cache

A cache is asked for one span after the other, and every call is left to workers that take turns as
they like. Whatever state is passed through, the cache has a catalog and the work is sound for it.
So no two nodes are alike at any time, and a worker that hands a node over gets the number of that
node and not of one over another span.
-/
namespace AndOrFlow
open Relation Bounds

/-- An or-node is made of candidates unless there is none, or one that needs no choice. -/
def Bounds.Wraps (b : Bounds) (s : Span) (ids : List NodeId) : Prop :=
  ids ≠ [] ∧ (ids.length = 1 → b.WrapsUnit s)

namespace Task

/-- The states that a fresh cache can come to. A call begins when the one before it has its
answer. -/
inductive Reachable (b : Bounds) : Work → Prop
  | fresh : Reachable b (.empty, .done none)
  | call {c : Cache} {answer : Option NodeId} {s : Span} (h : Reachable b (c, .done answer))
      (hs : s.Proper) : Reachable b (c, .look s)
  | step {x y : Work} (h : Reachable b x) (hstep : Step b x y) : Reachable b y

/-- The node is what the next step of a worker hands over to be stored. -/
inductive Hands (b : Bounds) : Task → Node → Prop
  | plant {s : Span} (h : b.Admits s.width) : Hands b (.plant s) (.terminal s)
  | part {s : Span} {terminal : List NodeId} {parts : Nat → Task} {k : Nat} {n : Node}
      (hk : k ∈ s.cuts) (h : Hands b (parts k) n) : Hands b (.cut s terminal parts) n
  | choose {s : Span} {terminal : List NodeId} {parts : Nat → Task}
      (h : ∀ k ∈ s.cuts, (parts k).IsDone) (hwraps : b.Wraps s (candidates s terminal parts)) :
      Hands b (.cut s terminal parts) (.or s (candidates s terminal parts))
  | left {s : Span} {k : Nat} {t : Task} {n : Node} (h : Hands b t n) : Hands b (.left s k t) n
  | right {s : Span} {k : Nat} {first : NodeId} {t : Task} {n : Node} (h : Hands b t n) :
      Hands b (.right s k first t) n
  | join (s : Span) (k : Nat) (first second : NodeId) :
      Hands b (.right s k first (.done (some second))) (.and s [first, second])

variable {b : Bounds} {c : Cache} {items : List Item} {s : Span} {x y : Work} {t : Task} {n : Node}
  {ids : List NodeId} {spans : List Span} {answer : Option NodeId} {expected : Option Item}

theorem cache_leaf (b : Bounds) (s : Span) (c : Cache) :
    (b.Admits s.width ∧ (c.leaf b s).2 = (c.intern (.terminal s)).2) ∨
      (¬ b.Admits s.width ∧ (c.leaf b s).2 = c) := by
  unfold Cache.leaf
  split
  · exact Or.inl ⟨‹_›, rfl⟩
  · exact Or.inr ⟨‹_›, rfl⟩

theorem cache_choose (b : Bounds) (s : Span) (ids : List NodeId) (c : Cache) :
    (b.Wraps s ids ∧ (c.choose b s ids).2 = (c.intern (.or s ids)).2) ∨
      (¬ b.Wraps s ids ∧ (c.choose b s ids).2 = c) := by
  unfold Cache.choose
  split
  · exact Or.inr ⟨fun h => h.1 rfl, rfl⟩
  · split
    · rename_i hunit
      exact Or.inl ⟨⟨List.cons_ne_nil _ _, fun _ => hunit⟩, rfl⟩
    · rename_i hunit
      exact Or.inr ⟨fun h => hunit (h.2 rfl), rfl⟩
  · rename_i hnil hone
    refine Or.inl ⟨⟨hnil, fun hlength => ?_⟩, rfl⟩
    obtain ⟨only, rfl⟩ := List.length_eq_one_iff.mp hlength
    exact absurd rfl (hone only)

/-- A step stores a node that is handed over, or remembers an answer, or leaves the cache alone. -/
theorem Step.cache (h : Step b x y) : (∃ n, x.2.Hands b n ∧ y.1 = (x.1.intern n).2) ∨
    (∃ s answer, y.1 = x.1.remember s answer) ∨ y.1 = x.1 := by
  induction h with
  | hit => exact Or.inr (Or.inr rfl)
  | miss => exact Or.inr (Or.inr rfl)
  | plant c s =>
    rcases cache_leaf b s c with ⟨hadmits, hleaf⟩ | ⟨-, hleaf⟩
    · exact Or.inl ⟨_, .plant hadmits, hleaf⟩
    · exact Or.inr (Or.inr hleaf)
  | part hk _ ih => exact ih.imp_left fun ⟨n, hn, heq⟩ => ⟨n, .part hk hn, heq⟩
  | @choose c s terminal parts hdone =>
    rcases cache_choose b s (candidates s terminal parts) c with ⟨hwraps, hchoose⟩ | ⟨-, hchoose⟩
    · exact Or.inl ⟨_, .choose hdone hwraps, hchoose⟩
    · exact Or.inr (Or.inr hchoose)
  | left _ ih => exact ih.imp_left fun ⟨n, hn, heq⟩ => ⟨n, .left hn, heq⟩
  | noLeft => exact Or.inr (Or.inr rfl)
  | turn => exact Or.inr (Or.inr rfl)
  | right _ ih => exact ih.imp_left fun ⟨n, hn, heq⟩ => ⟨n, .right hn, heq⟩
  | noRight => exact Or.inr (Or.inr rfl)
  | join c s k first second => exact Or.inl ⟨_, .join s k first second, rfl⟩
  | keep c s answer => exact Or.inr (Or.inl ⟨s, answer, rfl⟩)

theorem Hands.exists_step (h : t.Hands b n) (c : Cache) :
    ∃ u, Step b (c, t) ((c.intern n).2, u) := by
  induction h with
  | @plant s hadmits =>
    rcases cache_leaf b s c with ⟨-, hleaf⟩ | ⟨hnot, -⟩
    · have hstep : Step b (c, .plant s) _ := .plant c s
      rw [hleaf] at hstep
      exact ⟨_, hstep⟩
    · exact absurd hadmits hnot
  | part hk _ ih =>
    obtain ⟨u, hstep⟩ := ih
    exact ⟨_, .part hk hstep⟩
  | @choose s terminal parts hdone hwraps =>
    rcases cache_choose b s (candidates s terminal parts) c with ⟨-, hchoose⟩ | ⟨hnot, -⟩
    · have hstep : Step b (c, .cut s terminal parts) _ := .choose c hdone
      rw [hchoose] at hstep
      exact ⟨_, hstep⟩
    · exact absurd hwraps hnot
  | left _ ih =>
    obtain ⟨u, hstep⟩ := ih
    exact ⟨_, .left hstep⟩
  | right _ ih =>
    obtain ⟨u, hstep⟩ := ih
    exact ⟨_, .right hstep⟩
  | join s k first second => exact ⟨_, .join c s k first second⟩

theorem Hands.depicts (h : t.Hands b n) {expected : Option Item}
    (hsound : t.Sound b items expected) : ∃ x : Item, x.Legit b ∧ x.Depicts b items n := by
  induction h generalizing expected with
  | @plant s hadmits => exact ⟨.leaf s, hadmits, rfl, rfl, rfl⟩
  | @part s terminal parts k n hk _ ih => exact ih (hsound.2.2.2 k hk)
  | @choose s terminal parts hdone hwraps =>
    obtain ⟨-, -, hterminal, hparts⟩ := hsound
    have hids := map_candidates hterminal hparts hdone
    have hlength : (candidates s terminal parts).length = (b.alternatives s).length := by
      simpa using congrArg List.length hids
    have hpos := List.length_pos_of_ne_nil hwraps.1
    refine ⟨.choice s, ?_, rfl, rfl, hids⟩
    rcases Nat.lt_or_ge 1 (candidates s terminal parts).length with hseveral | hone
    · exact Or.inl (hlength ▸ hseveral)
    · refine Or.inr ⟨hwraps.2 (by omega), fun hnil => ?_⟩
      rw [hlength, hnil] at hpos
      exact Nat.lt_irrefl 0 hpos
  | left _ ih => exact ih hsound.2.2
  | right _ ih => exact ih hsound.2.2.2
  | join s k first second =>
    obtain ⟨hk, -, hfirst, hsecond⟩ := hsound
    obtain ⟨hsplit, hd⟩ := Cache.Catalog.depicts_join hk hfirst hsecond
    exact ⟨.join s k, ⟨hk, hsplit⟩, hd⟩

/-- In every state there is a catalog, and the work is sound for it. -/
theorem Reachable.sound (h : Reachable b x) :
    ∃ items expected, Cache.Catalog b x.1 items ∧ x.2.Sound b items expected := by
  induction h with
  | fresh => exact ⟨[], none, .empty, rfl⟩
  | @call c answer s _ hs ih =>
    obtain ⟨items, -, hcatalog, -⟩ := ih
    exact ⟨items, b.resolution s, hcatalog, hs, rfl⟩
  | step _ hstep ih =>
    obtain ⟨items, expected, hcatalog, hsound⟩ := ih
    obtain ⟨more, -, hmore, hsound'⟩ := hstep.sound hcatalog hsound
    exact ⟨more, expected, hmore, hsound'⟩

theorem Reachable.run (h : Reachable b x) (hrun : Run b x y) : Reachable b y := by
  induction hrun with
  | refl => exact h
  | tail _ hstep ih => exact ih.step hstep

/-- A call of one worker alone is one of the ways to go on. -/
theorem Reachable.resolve (h : Reachable b (c, .done answer)) (hs : s.Regular) :
    ∃ reply, Reachable b ((Cache.resolve b s c).2, .done reply) := by
  cases hlookup : c.lookup? s with
  | some reply =>
    rw [Cache.resolve, hlookup]
    exact ⟨reply, (h.call hs.1).step (.hit hlookup)⟩
  | none =>
    rw [Cache.resolve_of_new hs.1 hs.lo_lt hlookup]
    exact ⟨_, (h.call hs.1).run (run_resolveSpan b s c)⟩

theorem Reachable.resolveEach (h : Reachable b (c, .done answer))
    (hspans : ∀ s ∈ spans, s.Regular) :
    ∃ reply, Reachable b ((Cache.resolveEach b spans c).2, .done reply) := by
  induction spans generalizing c answer with
  | nil => exact ⟨answer, h⟩
  | cons s rest ih =>
    obtain ⟨hs, hrest⟩ := List.forall_mem_cons.mp hspans
    obtain ⟨reply, hfirst⟩ := h.resolve hs
    exact ih hfirst hrest

structure Shares (b : Bounds) (x : Work) : Prop where
  store : x.1.store.HashConsed
  /-- A remembered answer is a node over the span. -/
  memo : ∀ s id, s.Proper → x.1.lookup? s = some (some id) → x.1.store.Covers id s
  /-- A node that is handed over gets the number at which it is stored itself. -/
  handed : ∀ n, x.2.Hands b n → (x.1.intern n).2.store.node? (x.1.intern n).1 = some n
  exists_step : ∀ n, x.2.Hands b n → ∃ u, Step b x ((x.1.intern n).2, u)
  /-- Nothing else changes the store. -/
  step : ∀ y, Step b x y → (∃ n, x.2.Hands b n ∧ y.1 = (x.1.intern n).2) ∨
    (∃ s answer, y.1 = x.1.remember s answer) ∨ y.1 = x.1

/-- However a fresh cache came to its state, no two of its nodes are alike and what is handed over is
found as itself; to resolve spans one after the other is one of the ways to such states. -/
theorem shares_of_calls (b : Bounds) : (∀ x, Reachable b x → Shares b x) ∧
    ∀ spans, (∀ s ∈ spans, s.Regular) →
      ∃ reply, Reachable b ((Cache.resolveEach b spans .empty).2, .done reply) := by
  constructor
  · intro x h
    obtain ⟨items, expected, hcatalog, hsound⟩ := h.sound
    constructor
    case store => exact hcatalog.hashConsed
    case memo =>
      intro s id hs hlookup
      have hanswer := hcatalog.memo s (some id) hs hlookup
      obtain ⟨found, hfound, hid⟩ := Cache.Catalog.item_of_answer hanswer
      exact hcatalog.covers_of_resolution hfound hid
    case handed =>
      intro n hn
      obtain ⟨found, hlegit, hd⟩ := hn.depicts hsound
      exact hcatalog.node?_intern hlegit hd
    case exists_step => exact fun n hn => hn.exists_step x.1
    case step => exact fun y hstep => hstep.cache
  · intro spans hspans
    exact Reachable.fresh.resolveEach hspans

/-- A cache that was asked for two overlapping spans of three positions. -/
def overlapping : Cache :=
  (Cache.resolveEach { dim := 4, maxSize := 2 } [⟨0, 3⟩, ⟨1, 4⟩] .empty).2

theorem shares_of_calls_overlapping : (∀ s ∈ [⟨0, 3⟩, ⟨1, 4⟩], Span.Regular s) ∧
    overlapping.interned = 19 ∧ overlapping.store.HashConsed := by
  have hspans : ∀ s ∈ [⟨0, 3⟩, ⟨1, 4⟩], Span.Regular s := by decide
  have h := shares_of_calls { dim := 4, maxSize := 2 }
  obtain ⟨reply, hreachable⟩ := h.2 _ hspans
  exact ⟨hspans, by decide +kernel, (h.1 _ hreachable).store⟩

end Task
end AndOrFlow
