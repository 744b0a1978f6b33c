import AndOrFlow.Proofs.Concurrent.Sound
import AndOrFlow.Proofs.Renumbering

/-!
# A concurrent build is a sequential one

The numbers of stored nodes depend on which worker came first. Two runs agree on what the numbers
stand for, and renumbering in post-order depends on nothing else, so every run ends with the graph
that a single worker builds.
-/
namespace AndOrFlow
open Relation Bounds

variable {b : Bounds} {c d : Cache} {items others : List Item} {answer reply : Option NodeId}
  {expected : Option Item}

namespace Graph

/-- How a build may end whose spans are resolved concurrently. -/
inductive MayEnd (b : Bounds) : Except (Failure GraphError) Graph → Prop
  | invalid {defect : Bounds.Defect} (h : b.defect? = some defect) :
      MayEnd b (Failure.raise (.invalidBounds b.dim b.minSize b.maxSize defect))
  | resolved {c : Cache} {answer : Option NodeId} (h : b.defect? = none)
      (hrun : Task.Run b (.empty, .look b.domain) (c, .done answer)) :
      MayEnd b (conclude b c answer)

/-- The outcome depends on what the answer stands for, and not on the cache. -/
theorem conclude_eq (h : Cache.Catalog b c items) (hanswer : Task.StandsFor items answer expected)
    (h' : Cache.Catalog b d others) (hreply : Task.StandsFor others reply expected) :
    conclude b c answer = conclude b d reply := by
  cases expected with
  | none =>
    obtain rfl : answer = none := Option.map_eq_none_iff.mp hanswer
    obtain rfl : reply = none := Option.map_eq_none_iff.mp hreply
    rfl
  | some x =>
    obtain ⟨root, rfl, hroot⟩ := Option.map_eq_some_iff.mp hanswer
    obtain ⟨start, rfl, hstart⟩ := Option.map_eq_some_iff.mp hreply
    obtain ⟨g, -, hg, -⟩ := h.canonical hroot
    have hsame := (h.matches_sameItem h').canonical_eq ⟨x, hroot, hstart⟩ hg
    rw [conclude, conclude, hg, hsame]

/-- Every run of the workers ends as the build does. -/
theorem mayEnd_iff (outcome : Except (Failure GraphError) Graph) :
    MayEnd b outcome ↔ outcome = build b := by
  cases hb : b.defect? with
  | some defect =>
    have hbuild : build b =
        Failure.raise (.invalidBounds b.dim b.minSize b.maxSize defect) := by
      rw [build, hb]
    rw [hbuild]
    constructor
    · rintro (⟨hdefect⟩ | ⟨hnone, -⟩)
      · rw [hb] at hdefect
        obtain rfl := Option.some.inj hdefect
        rfl
      · rw [hb] at hnone
        cases hnone
    · rintro rfl
      exact .invalid hb
  | none =>
    obtain ⟨answer, c, items, hcatalog, hanswer, hbuild⟩ := build_of_defect_none hb
    have hend : ∀ d reply, Task.Run b (.empty, .look b.domain) (d, .done reply) →
        conclude b d reply = build b := by
      intro d reply hrun
      obtain ⟨others, hcatalog', hreply⟩ := Task.answer_of_run (proper_domain hb) hrun
      rw [conclude_eq hcatalog' hreply hcatalog hanswer, hbuild]
    constructor
    · rintro (⟨hdefect⟩ | ⟨-, hrun⟩)
      · rw [hb] at hdefect
        cases hdefect
      · exact hend _ _ hrun
    · rintro rfl
      obtain ⟨d, reply, hrun⟩ := Task.exists_run b (.empty, .look b.domain)
      rw [← hend d reply hrun]
      exact .resolved hb hrun

theorem resolve_parallel (b : Bounds) (p : Bool) (s : Span) (c : Cache) :
    Cache.resolve { b with parallel := p } s c = Cache.resolve b s c := by
  have hwithin : ∀ n, Cache.resolveWithin { b with parallel := p } n = Cache.resolveWithin b n := by
    intro n
    induction n with
    | zero => rfl
    | succ n ih =>
      rw [Cache.resolveWithin, Cache.resolveWithin, ih]
      rfl
  simp only [Cache.resolve, Cache.resolveSpan, hwithin]
  rfl

theorem canonical_bounds (nodes : Array Node) (root : NodeId) (b b' : Bounds) :
    canonical nodes root b = (canonical nodes root b').map fun g => { g with bounds := b } := by
  unfold canonical
  cases AndOrFlow.postOrder nodes root <;> rfl

theorem conclude_parallel (b : Bounds) (p : Bool) (c : Cache) (answer : Option NodeId) :
    conclude b c answer =
      (conclude { b with parallel := p } c answer).map fun g => { g with bounds := b } := by
  cases answer with
  | none => rfl
  | some root =>
    rw [conclude, conclude, canonical_bounds c.store.nodes root b { b with parallel := p }]
    cases canonical c.store.nodes root { b with parallel := p } <;> rfl

/-- A sequential build records that it was sequential, and differs in nothing else. -/
theorem build_parallel (b : Bounds) (p : Bool) :
    build b = (build { b with parallel := p }).map fun g => { g with bounds := b } := by
  have hdefect : ({ b with parallel := p } : Bounds).defect? = b.defect? := rfl
  have hdomain : ({ b with parallel := p } : Bounds).domain = b.domain := rfl
  cases hb : b.defect? with
  | some defect =>
    rw [build, build, hdefect, hb]
    rfl
  | none =>
    rw [build_eq hb, build_eq (hdefect.trans hb), hdomain, resolve_parallel b p]
    cases (Cache.empty.resolve b b.domain).1 with
    | error f => rfl
    | ok answer => exact conclude_parallel b p _ answer

/-- Whatever turns the workers take, they come to an end, and the outcome is that of a sequential
build: the same error, or the same nodes under the same numbers with the same root. -/
theorem build_concurrent (b : Bounds) :
    (∀ outcome, MayEnd b outcome ↔
      outcome = (build { b with parallel := false }).map fun g => { g with bounds := b }) ∧
    (∀ x, Task.Run b (.empty, .look b.domain) x → x.2.IsDone ∨ ∃ next, Task.Step b x next) ∧
    WellFounded fun next now => Task.Step b now next := by
  refine ⟨fun outcome => ?_, fun x _ => Task.exists_step x.1 x.2, Task.wellFounded_step b⟩
  rw [mayEnd_iff, build_parallel b false]

end Graph
end AndOrFlow
