import AndOrFlow.Cache
import Mathlib.Algebra.Order.BigOperators.Group.List
import Mathlib.Algebra.Order.Ring.Nat
import Mathlib.Logic.Function.Basic
import Mathlib.Logic.Relation
import Mathlib.Tactic.Linarith

/-!
# Resolving spans concurrently

The cuts of a span can be left to workers that share one cache. To look up a remembered answer, to
store a node and to remember an answer takes one step each, and between two steps of a worker any
other may take its own. An answer is remembered when it is complete, so a span that is being
resolved may be resolved a second time by somebody else. The and-nodes of a span are collected in
the order of the cuts, whatever order they were found in.
-/
namespace AndOrFlow
open Relation

/-- What is left to do until there is an answer. -/
inductive Task where
  /-- Look up the answer of a span. -/
  | look (s : Span)
  /-- Store the terminal of a span for which no answer was found. -/
  | plant (s : Span)
  /-- Resolve a span at its cuts; `terminal` is its candidate that is a terminal. -/
  | cut (s : Span) (terminal : List NodeId) (parts : Nat → Task)
  /-- Resolve the left part of a span cut at `k`, then the right one. -/
  | left (s : Span) (k : Nat) (part : Task)
  /-- Resolve the right part, and join it to the left. -/
  | right (s : Span) (k : Nat) (first : NodeId) (part : Task)
  /-- Remember the answer of a span. -/
  | keep (s : Span) (answer : Option NodeId)
  | done (answer : Option NodeId)

/-- The cache that all workers share, and what they have left to do. -/
abbrev Work := Cache × Task

namespace Task

def IsDone (t : Task) : Prop := ∃ answer, t = .done answer

def answer? : Task → Option NodeId
  | done answer => answer
  | _ => none

def start (s : Span) (k : Nat) : Task := .left s k (.look ⟨s.lo, k⟩)

/-- The candidates of a span: its terminal, then the and-nodes found, in the order of the cuts. -/
def candidates (s : Span) (terminal : List NodeId) (parts : Nat → Task) : List NodeId :=
  terminal ++ s.cuts.filterMap fun k => (parts k).answer?

inductive Step (b : Bounds) : Work → Work → Prop
  | hit {c : Cache} {s : Span} {answer : Option NodeId} (h : c.lookup? s = some answer) :
      Step b (c, .look s) (c, .done answer)
  | miss {c : Cache} {s : Span} (h : c.lookup? s = none) : Step b (c, .look s) (c, .plant s)
  | plant (c : Cache) (s : Span) :
      Step b (c, .plant s) ((c.leaf b s).2, .cut s (c.leaf b s).1 (start s))
  | part {c d : Cache} {s : Span} {terminal : List NodeId} {parts : Nat → Task} {k : Nat}
      {t : Task} (hk : k ∈ s.cuts) (h : Step b (c, parts k) (d, t)) :
      Step b (c, .cut s terminal parts) (d, .cut s terminal (Function.update parts k t))
  | choose (c : Cache) {s : Span} {terminal : List NodeId} {parts : Nat → Task}
      (h : ∀ k ∈ s.cuts, (parts k).IsDone) :
      Step b (c, .cut s terminal parts)
        ((c.choose b s (candidates s terminal parts)).2,
          .keep s (c.choose b s (candidates s terminal parts)).1)
  | left {c d : Cache} {s : Span} {k : Nat} {t u : Task} (h : Step b (c, t) (d, u)) :
      Step b (c, .left s k t) (d, .left s k u)
  | noLeft (c : Cache) (s : Span) (k : Nat) : Step b (c, .left s k (.done none)) (c, .done none)
  | turn (c : Cache) (s : Span) (k : Nat) (first : NodeId) :
      Step b (c, .left s k (.done (some first))) (c, .right s k first (.look ⟨k, s.hi⟩))
  | right {c d : Cache} {s : Span} {k : Nat} {first : NodeId} {t u : Task}
      (h : Step b (c, t) (d, u)) : Step b (c, .right s k first t) (d, .right s k first u)
  | noRight (c : Cache) (s : Span) (k : Nat) (first : NodeId) :
      Step b (c, .right s k first (.done none)) (c, .done none)
  | join (c : Cache) (s : Span) (k : Nat) (first second : NodeId) :
      Step b (c, .right s k first (.done (some second)))
        ((c.intern (.and s [first, second])).2, .done (some (c.intern (.and s [first, second])).1))
  | keep (c : Cache) (s : Span) (answer : Option NodeId) :
      Step b (c, .keep s answer) (c.remember s answer, .done answer)

abbrev Run (b : Bounds) : Work → Work → Prop := ReflTransGen (Step b)

variable {b : Bounds} {c d : Cache} {t u : Task} {s : Span}

/-- As long as there is no answer, somebody can take a step. -/
theorem exists_step (c : Cache) (t : Task) : t.IsDone ∨ ∃ next, Step b (c, t) next := by
  induction t with
  | look s =>
    cases h : c.lookup? s with
    | some answer => exact Or.inr ⟨_, .hit h⟩
    | none => exact Or.inr ⟨_, .miss h⟩
  | plant s => exact Or.inr ⟨_, .plant c s⟩
  | cut s terminal parts ih =>
    by_cases h : ∀ k ∈ s.cuts, (parts k).IsDone
    · exact Or.inr ⟨_, .choose c h⟩
    · push Not at h
      obtain ⟨k, hk, hopen⟩ := h
      obtain ⟨⟨d, t⟩, hstep⟩ := (ih k).resolve_left hopen
      exact Or.inr ⟨_, .part hk hstep⟩
  | left s k t ih =>
    rcases ih with ⟨_ | first, rfl⟩ | ⟨⟨d, u⟩, hstep⟩
    · exact Or.inr ⟨_, .noLeft c s k⟩
    · exact Or.inr ⟨_, .turn c s k first⟩
    · exact Or.inr ⟨_, .left hstep⟩
  | right s k first t ih =>
    rcases ih with ⟨_ | second, rfl⟩ | ⟨⟨d, u⟩, hstep⟩
    · exact Or.inr ⟨_, .noRight c s k first⟩
    · exact Or.inr ⟨_, .join c s k first second⟩
    · exact Or.inr ⟨_, .right hstep⟩
  | keep s answer => exact Or.inr ⟨_, .keep c s answer⟩
  | done answer => exact Or.inl ⟨answer, rfl⟩

/-! ## Every run ends -/

/-- More than the steps that it takes to resolve a span of this width. -/
def effort : Nat → Nat
  | 0 => 6
  | n + 1 => (n + 1) * (2 * effort n + 4) + 6

theorem effort_mono : Monotone effort := by
  refine monotone_nat_of_le_succ fun n => ?_
  rw [effort]
  nlinarith

/-- More than the steps that a task still takes. -/
def weight : Task → Nat
  | look s => effort s.width
  | plant s => effort s.width - 1
  | cut s _ parts => (s.cuts.map fun k => (parts k).weight).sum + 3
  | left s k t => t.weight + effort (s.hi - k) + 2
  | right _ _ _ t => t.weight + 1
  | keep _ _ => 1
  | done _ => 0

theorem weight_start_le {k : Nat} (hk : k ∈ s.cuts) :
    (start s k).weight ≤ 2 * effort (s.width - 1) + 2 := by
  obtain ⟨hlo, hhi⟩ := Span.mem_cuts.mp hk
  have hleft : effort (k - s.lo) ≤ effort (s.width - 1) :=
    effort_mono (by simp only [Span.width]; omega)
  have hright : effort (s.hi - k) ≤ effort (s.width - 1) :=
    effort_mono (by simp only [Span.width]; omega)
  simp only [start, weight, Span.width] at *
  omega

/-- The cuts of a span together take less than the span. -/
theorem weight_cuts_lt (s : Span) :
    (s.cuts.map fun k => (start s k).weight).sum + 3 < effort s.width - 1 := by
  have hbound : ∀ w ∈ s.cuts.map fun k => (start s k).weight,
      w ≤ 2 * effort (s.width - 1) + 2 := by
    intro w hw
    obtain ⟨k, hk, rfl⟩ := List.mem_map.mp hw
    exact weight_start_le hk
  have hsum := List.sum_le_card_nsmul _ _ hbound
  rw [List.length_map, Nat.nsmul_eq_mul, Span.cuts, List.length_range'] at hsum
  rw [Span.cuts]
  cases hwidth : s.width with
  | zero =>
    rw [hwidth] at hsum
    simp only [effort] at *
    omega
  | succ n =>
    rw [hwidth, Nat.add_sub_cancel] at hsum
    have hmul : n * (2 * effort n + 2) ≤ (n + 1) * (2 * effort n + 4) :=
      Nat.mul_le_mul (Nat.le_succ n) (by omega)
    rw [Nat.add_sub_cancel, effort]
    omega

theorem effort_pos (n : Nat) : 0 < effort n := by
  cases n with
  | zero => decide
  | succ n => exact Nat.lt_of_lt_of_le (by decide : 0 < 6) (Nat.le_add_left _ _)

theorem Step.weight_lt {x y : Work} (h : Step b x y) : y.2.weight < x.2.weight := by
  induction h with
  | hit => exact effort_pos _
  | miss => exact Nat.sub_lt (effort_pos _) Nat.one_pos
  | plant c s => exact weight_cuts_lt s
  | @part c d s terminal parts k t hk h ih =>
    refine Nat.add_lt_add_right (List.sum_lt_sum _ _ (fun j _ => ?_) ⟨k, hk, ?_⟩) 3
    · rcases eq_or_ne j k with rfl | hne
      · simpa using Nat.le_of_lt ih
      · simp [Function.update_of_ne hne]
    · simpa using ih
  | choose => exact Nat.lt_of_lt_of_le (by decide : 1 < 3) (Nat.le_add_left _ _)
  | left h ih => exact Nat.add_lt_add_right (Nat.add_lt_add_right ih _) _
  | noLeft => exact Nat.lt_of_lt_of_le Nat.two_pos (Nat.le_add_left _ _)
  | turn c s k first => simp [weight, Span.width]
  | right h ih => exact Nat.add_lt_add_right ih _
  | noRight => exact Nat.one_pos
  | join => exact Nat.one_pos
  | keep => exact Nat.one_pos

/-- There is no run without an end. -/
theorem wellFounded_step (b : Bounds) : WellFounded fun next now => Step b now next :=
  Subrelation.wf (fun h => h.weight_lt) (measure fun x : Work => x.2.weight).wf

/-- Whatever has been done so far, it can be carried on to an answer. -/
theorem exists_run (b : Bounds) (x : Work) : ∃ d answer, Run b x (d, .done answer) := by
  induction x using (wellFounded_step b).induction with
  | _ x ih =>
    obtain ⟨c, t⟩ := x
    rcases exists_step (b := b) c t with ⟨answer, rfl⟩ | ⟨next, hstep⟩
    · exact ⟨c, answer, .refl⟩
    · obtain ⟨d, answer, hrun⟩ := ih next hstep
      exact ⟨d, answer, hrun.head hstep⟩

/-! ## One worker alone -/

theorem Run.left (s : Span) (k : Nat) (h : Run b (c, t) (d, u)) :
    Run b (c, .left s k t) (d, .left s k u) :=
  h.lift (fun x : Work => (x.1, Task.left s k x.2)) fun _ _ hstep => .left hstep

theorem Run.right (s : Span) (k : Nat) (first : NodeId) (h : Run b (c, t) (d, u)) :
    Run b (c, .right s k first t) (d, .right s k first u) :=
  h.lift (fun x : Work => (x.1, Task.right s k first x.2)) fun _ _ hstep => .right hstep

theorem Run.part {terminal : List NodeId} {parts : Nat → Task} {k : Nat} (hk : k ∈ s.cuts)
    (h : Run b (c, parts k) (d, t)) :
    Run b (c, .cut s terminal parts) (d, .cut s terminal (Function.update parts k t)) := by
  have hlift : Run b (c, .cut s terminal (Function.update parts k (parts k)))
      (d, .cut s terminal (Function.update parts k t)) := by
    refine h.lift (fun x : Work => (x.1, Task.cut s terminal (Function.update parts k x.2)))
      fun x y hstep => ?_
    have hpart : Step b (x.1, Function.update parts k x.2 k) (y.1, y.2) := by
      rwa [Function.update_self]
    have hcut : Step b (x.1, .cut s terminal (Function.update parts k x.2)) _ := .part hk hpart
    rwa [Function.update_idem] at hcut
  rwa [Function.update_eq_self] at hlift

/-- The answers of `recur` are those of a run. -/
def Carries (b : Bounds) (recur : Span → Cache → Option NodeId × Cache) (n : Nat) : Prop :=
  ∀ (s : Span) (c : Cache), s.width < n → Run b (c, .look s) ((recur s c).2, .done (recur s c).1)

variable {recur : Span → Cache → Option NodeId × Cache}

theorem run_joinAt {k : Nat} (h : Carries b recur s.width) (hk : k ∈ s.cuts) (c : Cache) :
    Run b (c, start s k) ((Cache.joinAt recur s k c).2, .done (Cache.joinAt recur s k c).1) := by
  have hcut := Span.mem_cuts.mp hk
  have hleft := (h ⟨s.lo, k⟩ c (Span.width_left_lt hcut)).left s k
  rw [Cache.joinAt]
  split
  · rename_i d heq
    rw [heq] at hleft
    exact hleft.tail (.noLeft d s k)
  · rename_i first d heq
    rw [heq] at hleft
    have hright := (h ⟨k, s.hi⟩ d (Span.width_right_lt hcut)).right s k first
    have hturned := (hleft.tail (.turn d s k first)).trans hright
    split
    · rename_i e heq'
      rw [heq'] at hturned
      exact hturned.tail (.noRight e s k first)
    · rename_i second e heq'
      rw [heq'] at hturned
      exact hturned.tail (.join e s k first second)

theorem run_joins {ks : List Nat} (h : Carries b recur s.width) (hks : ∀ k ∈ ks, k ∈ s.cuts)
    (hnodup : ks.Nodup) (terminal : List NodeId) (c : Cache) (parts : Nat → Task)
    (hparts : ∀ k ∈ ks, parts k = start s k) :
    ∃ found : Nat → Task, Run b (c, .cut s terminal parts)
        ((Cache.joins recur s ks c).2, .cut s terminal found) ∧
      (∀ k ∈ ks, (found k).IsDone) ∧ (∀ k, k ∉ ks → found k = parts k) ∧
      ks.filterMap (fun k => (found k).answer?) = (Cache.joins recur s ks c).1 := by
  induction ks generalizing c parts with
  | nil => exact ⟨parts, .refl, by simp, by simp, rfl⟩
  | cons k ks ih =>
    obtain ⟨hfresh, hrest⟩ := List.nodup_cons.mp hnodup
    have hk : k ∈ s.cuts := hks k (List.mem_cons_self ..)
    have hfirst : Run b (c, parts k) _ := hparts k (List.mem_cons_self ..) ▸ run_joinAt h hk c
    have hstart : ∀ j ∈ ks, Function.update parts k (.done (Cache.joinAt recur s k c).1) j =
        start s j := by
      intro j hj
      have hne : j ≠ k := fun heq => hfresh (heq ▸ hj)
      rw [Function.update_of_ne hne, hparts j (List.mem_cons_of_mem _ hj)]
    obtain ⟨found, hrun, hdone, hsame, hanswers⟩ :=
      ih (fun j hj => hks j (List.mem_cons_of_mem _ hj)) hrest (Cache.joinAt recur s k c).2 _ hstart
    have hfound : found k = .done (Cache.joinAt recur s k c).1 := by
      rw [hsame k hfresh, Function.update_self]
    refine ⟨found, (hfirst.part hk).trans hrun, ?_, ?_, ?_⟩
    · intro j hj
      rcases List.mem_cons.mp hj with rfl | hj
      · exact ⟨_, hfound⟩
      · exact hdone j hj
    · intro j hj
      obtain ⟨hne, hj⟩ := not_or.mp (fun hor => hj (List.mem_cons.mpr hor))
      rw [hsame j hj, Function.update_of_ne hne]
    · rw [Cache.joins, ← hanswers]
      simp only [List.filterMap_cons, hfound, answer?]
      cases (Cache.joinAt recur s k c).1 <;> rfl

theorem carries_resolveStep {n : Nat} (h : Carries b recur n) :
    Carries b (Cache.resolveStep b recur) (n + 1) := by
  intro s c hwidth
  rw [Cache.resolveStep]
  split
  · rename_i answer hlookup
    exact .single (.hit hlookup)
  · rename_i hlookup
    have hparts : Carries b recur s.width := fun t d ht => h t d (by omega)
    obtain ⟨found, hrun, hdone, -, hanswers⟩ := run_joins hparts (fun k hk => hk)
      List.nodup_range' (c.leaf b s).1 (c.leaf b s).2 (start s) (fun k _ => rfl)
    have hcut := ((hrun.head (.plant c s)).head (.miss hlookup)).tail (.choose _ hdone)
    rw [candidates, hanswers] at hcut
    exact hcut.tail (.keep _ s _)

theorem carries_resolveWithin (n : Nat) : Carries b (Cache.resolveWithin b n) n := by
  induction n with
  | zero => exact fun s c hwidth => absurd hwidth (Nat.not_lt_zero _)
  | succ n ih => exact carries_resolveStep ih

/-- Resolving the parts of every span one after the other is one of the runs. -/
theorem run_resolveSpan (b : Bounds) (s : Span) (c : Cache) :
    Run b (c, .look s) ((Cache.resolveSpan b s c).2, .done (Cache.resolveSpan b s c).1) :=
  carries_resolveWithin (s.width + 1) s c (Nat.lt_succ_self _)

end Task
end AndOrFlow
