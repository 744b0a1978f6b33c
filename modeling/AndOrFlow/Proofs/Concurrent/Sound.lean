import AndOrFlow.Proofs.Catalog
import AndOrFlow.Proofs.Concurrent.Task

/-!
# What a concurrent run answers

A task is sound for an item if the answers it holds so far stand for the right items, and what is
left to do leads to that item. Nodes keep their numbers and the catalog grows at its end only, so a
step of one worker leaves the tasks of all others sound. What a worker adds by its own step is sound
for the same reason as if it were alone: whether it finds an answer remembered or finds it again, the
answer stands for the same item.
-/
namespace AndOrFlow
open Relation Bounds

namespace Task

variable {b : Bounds} {c : Cache} {items more : List Item} {s : Span} {x y : Work}
  {t : Task} {answer : Option NodeId} {expected : Option Item}

def StandsFor (items : List Item) (answer : Option NodeId) (expected : Option Item) : Prop :=
  answer.map (fun id => items[id]?) = expected.map some

/-- What the task holds is right, and it will answer with the position of the item. -/
def Sound (b : Bounds) (items : List Item) : Task → Option Item → Prop
  | look s, expected => s.Proper ∧ expected = b.resolution s
  | plant s, expected => s.Proper ∧ expected = b.resolution s
  | cut s terminal parts, expected => s.Proper ∧ expected = b.resolution s ∧
      terminal.map (fun id => items[id]?) = (b.leafOf s).map some ∧
      ∀ k ∈ s.cuts, (parts k).Sound b items (b.joinOf s k)
  | left s k part, expected => (s.lo < k ∧ k < s.hi) ∧ expected = b.joinOf s k ∧
      part.Sound b items (b.resolution ⟨s.lo, k⟩)
  | right s k first part, expected => (s.lo < k ∧ k < s.hi) ∧ expected = b.joinOf s k ∧
      StandsFor items (some first) (b.resolution ⟨s.lo, k⟩) ∧
      part.Sound b items (b.resolution ⟨k, s.hi⟩)
  | keep s answer, expected => s.Proper ∧ expected = b.resolution s ∧
      StandsFor items answer expected
  | done answer, expected => StandsFor items answer expected

theorem StandsFor.of_extends (hpre : items <+: more) (h : StandsFor items answer expected) :
    StandsFor more answer expected :=
  Listing.answer_of_extends hpre h

/-- What others add to the catalog leaves a task sound. -/
theorem Sound.of_extends (hpre : items <+: more) (h : t.Sound b items expected) :
    t.Sound b more expected := by
  induction t generalizing expected with
  | look s => exact h
  | plant s => exact h
  | cut s terminal parts ih =>
    obtain ⟨hs, hexpected, hterminal, hparts⟩ := h
    exact ⟨hs, hexpected, Listing.map_getElem?_of_extends hpre hterminal,
      fun k hk => ih k (hparts k hk)⟩
  | left s k part ih => exact ⟨h.1, h.2.1, ih h.2.2⟩
  | right s k first part ih => exact ⟨h.1, h.2.1, h.2.2.1.of_extends hpre, ih h.2.2.2⟩
  | keep s answer => exact ⟨h.1, h.2.1, h.2.2.of_extends hpre⟩
  | done answer => exact StandsFor.of_extends hpre h

theorem sound_start {k : Nat} (hk : k ∈ s.cuts) : (start s k).Sound b items (b.joinOf s k) :=
  ⟨Span.mem_cuts.mp hk, rfl, (Span.mem_cuts.mp hk).1, rfl⟩

/-- With an answer for every cut, the candidates of a span are its alternatives. -/
theorem map_candidates {terminal : List NodeId} {parts : Nat → Task}
    (hterminal : terminal.map (fun id => items[id]?) = (b.leafOf s).map some)
    (hparts : ∀ k ∈ s.cuts, (parts k).Sound b items (b.joinOf s k))
    (hdone : ∀ k ∈ s.cuts, (parts k).IsDone) :
    (candidates s terminal parts).map (fun id => items[id]?) = (b.alternatives s).map some := by
  have hjoins : (s.cuts.filterMap fun k => (parts k).answer?).map (fun id => items[id]?) =
      (s.cuts.filterMap (b.joinOf s)).map some := by
    rw [List.map_filterMap, List.map_filterMap]
    refine List.filterMap_congr fun k hk => ?_
    obtain ⟨answer, hanswer⟩ := hdone k hk
    have hsound := hparts k hk
    rw [hanswer] at hsound ⊢
    exact hsound
  rw [candidates, List.map_append, hterminal, hjoins, alternatives_eq, List.map_append]

theorem Step.sound (h : Step b x y) {items : List Item} {expected : Option Item}
    (hcatalog : Cache.Catalog b x.1 items) (hsound : x.2.Sound b items expected) :
    ∃ more, items <+: more ∧ Cache.Catalog b y.1 more ∧ y.2.Sound b more expected := by
  induction h generalizing items expected with
  | @hit c s answer hlookup =>
    obtain ⟨hs, rfl⟩ := hsound
    exact ⟨items, List.prefix_rfl, hcatalog, hcatalog.memo s answer hs hlookup⟩
  | miss => exact ⟨items, List.prefix_rfl, hcatalog, hsound⟩
  | plant c s =>
    obtain ⟨more, hpre, hmore, hleaf⟩ := hcatalog.leaf s
    exact ⟨more, hpre, hmore, hsound.1, hsound.2, hleaf, fun k hk => sound_start hk⟩
  | @part c d s terminal parts k t hk hstep ih =>
    obtain ⟨hs, hexpected, hterminal, hparts⟩ := hsound
    obtain ⟨more, hpre, hmore, hpart⟩ := ih hcatalog (hparts k hk)
    refine ⟨more, hpre, hmore, hs, hexpected, Listing.map_getElem?_of_extends hpre hterminal,
      fun j hj => ?_⟩
    rcases eq_or_ne j k with rfl | hne
    · rwa [Function.update_self]
    · rw [Function.update_of_ne hne]
      exact (hparts j hj).of_extends hpre
  | @choose c s terminal parts hdone =>
    obtain ⟨hs, rfl, hterminal, hparts⟩ := hsound
    obtain ⟨more, hpre, hmore, hanswer⟩ :=
      hcatalog.choose (map_candidates hterminal hparts hdone)
    exact ⟨more, hpre, hmore, hs, rfl, hanswer⟩
  | left hstep ih =>
    obtain ⟨hk, hexpected, hpart⟩ := hsound
    obtain ⟨more, hpre, hmore, hpart'⟩ := ih hcatalog hpart
    exact ⟨more, hpre, hmore, hk, hexpected, hpart'⟩
  | noLeft c s k =>
    obtain ⟨hk, rfl, hpart⟩ := hsound
    have hno : ¬ b.SplitsAt s k := fun hsplit =>
      Cache.Catalog.not_tilable_of_answer (s := ⟨s.lo, k⟩) hk.1 hpart hsplit.1
    exact ⟨items, List.prefix_rfl, hcatalog, by rw [joinOf_of_not_splitsAt hno]; rfl⟩
  | turn c s k first =>
    obtain ⟨hk, hexpected, hpart⟩ := hsound
    exact ⟨items, List.prefix_rfl, hcatalog, hk, hexpected, hpart, hk.2, rfl⟩
  | right hstep ih =>
    obtain ⟨hk, hexpected, hfirst, hpart⟩ := hsound
    obtain ⟨more, hpre, hmore, hpart'⟩ := ih hcatalog hpart
    exact ⟨more, hpre, hmore, hk, hexpected, hfirst.of_extends hpre, hpart'⟩
  | noRight c s k first =>
    obtain ⟨hk, rfl, -, hpart⟩ := hsound
    have hno : ¬ b.SplitsAt s k := fun hsplit =>
      Cache.Catalog.not_tilable_of_answer (s := ⟨k, s.hi⟩) hk.2 hpart hsplit.2
    exact ⟨items, List.prefix_rfl, hcatalog, by rw [joinOf_of_not_splitsAt hno]; rfl⟩
  | join c s k first second =>
    obtain ⟨hk, rfl, hfirst, hpart⟩ := hsound
    obtain ⟨hsplit, more, hpre, hmore, hid⟩ := hcatalog.join hk hfirst hpart
    exact ⟨more, hpre, hmore, by rw [joinOf_of_splitsAt hsplit]; exact congrArg some hid⟩
  | keep c s answer =>
    obtain ⟨hs, rfl, hanswer⟩ := hsound
    exact ⟨items, List.prefix_rfl, hcatalog.remember hanswer, hanswer⟩

theorem Run.sound (h : Run b x y) (hcatalog : Cache.Catalog b x.1 items)
    (hsound : x.2.Sound b items expected) :
    ∃ more, items <+: more ∧ Cache.Catalog b y.1 more ∧ y.2.Sound b more expected := by
  induction h with
  | refl => exact ⟨items, List.prefix_rfl, hcatalog, hsound⟩
  | tail _ hstep ih =>
    obtain ⟨items₁, hpre₁, h₁, hsound₁⟩ := ih
    obtain ⟨items₂, hpre₂, h₂, hsound₂⟩ := hstep.sound h₁ hsound₁
    exact ⟨items₂, hpre₁.trans hpre₂, h₂, hsound₂⟩

/-- However the workers take turns, they leave a catalog, and the answer is the position of the item
that stands for the span. -/
theorem answer_of_run (hs : s.Proper) (h : Run b (.empty, .look s) (c, .done answer)) :
    ∃ items, Cache.Catalog b c items ∧ StandsFor items answer (b.resolution s) := by
  obtain ⟨items, -, hcatalog, hanswer⟩ := h.sound .empty ⟨hs, rfl⟩
  exact ⟨items, hcatalog, hanswer⟩

end Task
end AndOrFlow
