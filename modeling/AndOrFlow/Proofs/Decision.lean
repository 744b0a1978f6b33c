import AndOrFlow.Proofs.Calls
import AndOrFlow.Proofs.Concurrent.Build

/-!
# When there is a graph

Bounds that contradict each other are refused. Of the others a graph is built for those that can
fill the domain, and the rest fail with the domain as what cannot be decomposed. Nothing else can
happen: the nodes found refer to earlier ones only, so there is no dangling reference and no cycle
for the walk to come upon, and no arithmetic leaves the words. The same holds of a single span, no
matter what the cache has been asked for before.
-/
namespace AndOrFlow

open Bounds

variable {b : Bounds}

def Bounds.Refused (b : Bounds) : Prop :=
  b.minSize = 0 ∨ b.dim < b.minSize ∨ b.maxSize < b.minSize

theorem Bounds.not_refused_iff : ¬ b.Refused ↔ b.defect? = none := by
  rw [defect?_eq_none_iff, Refused]
  omega

namespace Graph

structure Decides (b : Bounds) (outcome : Except (Failure GraphError) Graph) : Prop where
  invalid_iff : (∃ defect, outcome = Failure.raise
    (.invalidBounds b.dim b.minSize b.maxSize defect)) ↔ b.Refused
  ok_iff : (∃ g, outcome = .ok g) ↔ ¬ b.Refused ∧ b.Tilable b.dim
  undecomposable_iff : outcome = Failure.raise (.undecomposable ⟨0, b.dim⟩) ↔
    ¬ b.Refused ∧ ¬ b.Tilable b.dim
  no_other : ∀ failure, outcome = .error failure →
    (∃ defect, failure = .error (.invalidBounds b.dim b.minSize b.maxSize defect)) ∨
      failure = .error (.undecomposable ⟨0, b.dim⟩)

theorem decides_of_refused {defect : Bounds.Defect} (h : b.Refused) :
    Decides b (Failure.raise (.invalidBounds b.dim b.minSize b.maxSize defect)) := by
  refine ⟨iff_of_true ⟨defect, rfl⟩ h, ?_, ?_, ?_⟩
  · exact iff_of_false (fun ⟨g, hg⟩ => by cases hg) fun hnot => hnot.1 h
  · exact iff_of_false (fun herror => by cases herror) fun hnot => hnot.1 h
  · intro failure hfailure
    cases hfailure
    exact Or.inl ⟨defect, rfl⟩

theorem decides_of_tilable {g : Graph} (h : ¬ b.Refused) (hdim : b.Tilable b.dim) :
    Decides b (.ok g) := by
  refine ⟨?_, iff_of_true ⟨g, rfl⟩ ⟨h, hdim⟩, ?_, ?_⟩
  · exact iff_of_false (fun ⟨defect, hdefect⟩ => by cases hdefect) h
  · exact iff_of_false (fun herror => by cases herror) fun hnot => hnot.2 hdim
  · intro failure hfailure
    cases hfailure

theorem decides_of_not_tilable (h : ¬ b.Refused) (hdim : ¬ b.Tilable b.dim) :
    Decides b (Failure.raise (.undecomposable b.domain)) := by
  refine ⟨?_, ?_, iff_of_true rfl ⟨h, hdim⟩, ?_⟩
  · exact iff_of_false (fun ⟨defect, hdefect⟩ => by cases hdefect) h
  · exact iff_of_false (fun ⟨g, hg⟩ => by cases hg) fun hok => hdim hok.2
  · intro failure hfailure
    cases hfailure
    exact Or.inr rfl

theorem decides_build (b : Bounds) : Decides b (build b) := by
  cases hb : b.defect? with
  | some defect =>
    have hrefused : b.Refused := by
      by_contra hnot
      rw [not_refused_iff.mp hnot] at hb
      cases hb
    rw [build, hb]
    exact decides_of_refused hrefused
  | none =>
    have hsound : ¬ b.Refused := not_refused_iff.mpr hb
    by_cases hdim : b.Tilable b.dim
    · obtain ⟨g, items, hg, -⟩ := build_of_tilable hb hdim
      rw [hg]
      exact decides_of_tilable hsound hdim
    · rw [build_of_not_tilable hb hdim]
      exact decides_of_not_tilable hsound hdim

/-- A build, by one worker or by several, ends as the bounds decide, and a regular span has an
answer exactly if its length can be filled, whatever spans were asked for before and however many
workers look for the answer. -/
theorem build_and_resolve_decided (b : Bounds) :
    Decides b (build b) ∧ (∀ outcome, MayEnd b outcome → Decides b outcome) ∧
    ∀ (earlier : List Span) (s : Span), s.Regular →
      let c := (Cache.resolveEach b earlier .empty).2
      (∃ answer, (c.resolve b s).1 = .ok answer ∧ (answer.isSome ↔ b.Tilable s.width)) ∧
      ∀ d answer, Task.Run b (c, .look s) (d, .done answer) →
        (answer.isSome ↔ b.Tilable s.width) := by
  refine ⟨decides_build b, ?_, ?_⟩
  · intro outcome houtcome
    rw [(mayEnd_iff outcome).mp houtcome]
    exact decides_build b
  · intro earlier s hs c
    obtain ⟨items, -, hcatalog⟩ := Cache.Catalog.empty.resolveEach_any (b := b) earlier
    constructor
    · obtain ⟨more, -, -, answer, hok, hanswer⟩ := hcatalog.resolve_answers hs
      exact ⟨answer, hok, Cache.Catalog.isSome_iff_tilable hs.1 hanswer⟩
    · intro d answer hrun
      obtain ⟨more, -, -, hanswer⟩ := hrun.sound hcatalog ⟨hs.1, rfl⟩
      exact Cache.Catalog.isSome_iff_tilable hs.1 hanswer

/-- Leaves of two positions leave a domain of three without a graph; its last two positions, asked
for after the whole of it and after an empty span, have an answer. -/
theorem build_and_resolve_decided_three :
    build { dim := 3, minSize := 2, maxSize := 2 } = Failure.raise (.undecomposable ⟨0, 3⟩) ∧
    (⟨1, 3⟩ : Span).Regular ∧
    ∃ id, (Cache.resolve { dim := 3, minSize := 2, maxSize := 2 } ⟨1, 3⟩
      (Cache.resolveEach { dim := 3, minSize := 2, maxSize := 2 } [⟨0, 3⟩, ⟨2, 2⟩] .empty).2).1 =
        .ok (some id) := by
  have hs : (⟨1, 3⟩ : Span).Regular := by decide
  obtain ⟨hbuild, -, hresolve⟩ :=
    build_and_resolve_decided { dim := 3, minSize := 2, maxSize := 2 }
  refine ⟨hbuild.undecomposable_iff.mpr ⟨by simp [Bounds.Refused], by decide⟩, hs, ?_⟩
  obtain ⟨⟨answer, hok, hsome⟩, -⟩ := hresolve [⟨0, 3⟩, ⟨2, 2⟩] ⟨1, 3⟩ hs
  obtain ⟨id, rfl⟩ := Option.isSome_iff_exists.mp (hsome.mpr (by decide))
  exact ⟨id, hok⟩

end Graph
end AndOrFlow
