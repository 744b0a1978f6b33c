import AndOrFlow.Proofs.Catalog

/-!
# Spans resolved one after the other

A cache may be asked for any number of spans, and an answer builds on what the earlier ones have
left behind. Whatever was asked for, a catalog lists the nodes stored so far and the next question
adds to its end; so an answer stands for the same item at any time.
-/
namespace AndOrFlow
open Bounds

/-- A span between two words, neither empty nor inverted. -/
def Span.Regular (s : Span) : Prop := s.Proper ∧ s.hi < Word.limit

instance (s : Span) : Decidable s.Regular := inferInstanceAs (Decidable (_ ∧ _))

theorem Span.Regular.lo_lt {s : Span} (h : s.Regular) : s.lo + 1 < Word.limit :=
  Nat.lt_of_le_of_lt h.1 h.2

namespace Cache

variable {b : Bounds} {c : Cache} {items : List Item} {s : Span} {spans : List Span}

def resolveEach (b : Bounds) : List Span → Cache → List (Checked (Option NodeId)) × Cache
  | [], c => ([], c)
  | s :: rest, c =>
    let first := resolve b s c
    let others := resolveEach b rest first.2
    (first.1 :: others.1, others.2)

/-- The result is an answer, and the answer is the position of the item that stands for the span. -/
def Answers (b : Bounds) (items : List Item) (s : Span) (result : Checked (Option NodeId)) : Prop :=
  ∃ answer, result = .ok answer ∧ answer.map (fun id => items[id]?) = (b.resolution s).map some

theorem Answers.of_extends {more : List Item} {result : Checked (Option NodeId)}
    (hpre : items <+: more) (h : Answers b items s result) : Answers b more s result := by
  obtain ⟨answer, hresult, hanswer⟩ := h
  exact ⟨answer, hresult, Listing.answer_of_extends hpre hanswer⟩

namespace Catalog

/-- A span that is empty or inverted may end in a fault; what is stored till then is listed too. -/
theorem resolve_any (h : Catalog b c items) (s : Span) :
    ∃ more, items <+: more ∧ Catalog b (Cache.resolve b s c).2 more := by
  unfold Cache.resolve
  split
  · exact ⟨items, List.prefix_rfl, h⟩
  · rename_i hnew
    split
    · exact ⟨items, List.prefix_rfl, h⟩
    · obtain ⟨more, hpre, hmore, -⟩ := h.leaf s
      exact ⟨more, hpre, hmore⟩
    · obtain ⟨more, hpre, hmore, -⟩ := h.resolveStep_of_new (resolveWithin s.width) hnew
      exact ⟨more, hpre, hmore⟩

theorem resolveEach_any (h : Catalog b c items) (spans : List Span) :
    ∃ more, items <+: more ∧ Catalog b (Cache.resolveEach b spans c).2 more := by
  induction spans generalizing c items with
  | nil => exact ⟨items, List.prefix_rfl, h⟩
  | cons s rest ih =>
    obtain ⟨items₁, hpre₁, h₁⟩ := h.resolve_any s
    obtain ⟨items₂, hpre₂, h₂⟩ := ih h₁
    exact ⟨items₂, hpre₁.trans hpre₂, h₂⟩

theorem resolve_answers (h : Catalog b c items) (hs : s.Regular) :
    ∃ more, items <+: more ∧ Catalog b (Cache.resolve b s c).2 more ∧
      Answers b more s (Cache.resolve b s c).1 := by
  obtain ⟨answer, more, hok, hpre, hmore, hanswer⟩ := h.resolve hs.1 hs.lo_lt
  exact ⟨more, hpre, hmore, answer, hok, hanswer⟩

theorem resolveEach_answers (h : Catalog b c items) (hs : ∀ s ∈ spans, s.Regular) :
    ∃ more, items <+: more ∧ Catalog b (Cache.resolveEach b spans c).2 more ∧
      List.Forall₂ (Answers b more) spans (Cache.resolveEach b spans c).1 := by
  induction spans generalizing c items with
  | nil => exact ⟨items, List.prefix_rfl, h, .nil⟩
  | cons s rest ih =>
    obtain ⟨hfirst, hrest⟩ := List.forall_mem_cons.mp hs
    obtain ⟨items₁, hpre₁, h₁, hanswer⟩ := h.resolve_answers hfirst
    obtain ⟨items₂, hpre₂, h₂, hanswers⟩ := ih h₁ hrest
    exact ⟨items₂, hpre₁.trans hpre₂, h₂, .cons (hanswer.of_extends hpre₂) hanswers⟩

theorem isSome_iff_tilable {answer : Option NodeId} (hs : s.Proper)
    (h : answer.map (fun id => items[id]?) = (b.resolution s).map some) :
    answer.isSome ↔ b.Tilable s.width := by
  cases answer with
  | none => simpa using not_tilable_of_answer hs h
  | some id =>
    obtain ⟨x, hx, -⟩ := item_of_answer h
    simpa using tilable_of_resolution hs hx

end Catalog
end Cache
end AndOrFlow
