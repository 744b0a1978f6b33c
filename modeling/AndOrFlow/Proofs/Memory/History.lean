import AndOrFlow.Memory.Search
import AndOrFlow.Proofs.Memory.Choice
import AndOrFlow.Proofs.Outcome

/-!
# The history of a search

Whatever the evaluator answers and whichever thresholds are guessed, a search only ever adds trials
that it has evaluated, never more than it may, and breaks off only where arithmetic or the evaluator
does.
-/
namespace AndOrFlow

variable {Op α : Type} {s : Search Op} {trials more : List Trial} {flags : DropFlags}

namespace Search

/-- A history of evaluated plans, no longer than allowed. -/
structure Record (s : Search Op) (trials : List Trial) : Prop where
  evaluated : ∀ t ∈ trials, s.evaluate (.ofDropped s.flow t.dropped) = .ok t.report
  length_le : trials.length ≤ s.maxTrials

structure Continues (s : Search Op) (trials more : List Trial) : Prop where
  extend : trials <+: more
  record : s.Record more

/-- After these trials a search breaks off: by a fault, or because one more plan fails. -/
inductive StopsAfter (s : Search Op) (trials : List Trial) : Stop PlanError DropFlags → Prop
  | fault (f : Fault) : StopsAfter s trials ⟨.fault f, trials.map Trial.dropped⟩
  | failure {flags : DropFlags} {failure : Failure PlanError} (hroom : trials.length < s.maxTrials)
      (h : s.evaluate (.ofDropped s.flow flags) = .error failure) :
      StopsAfter s trials ⟨failure, trials.map Trial.dropped ++ [flags]⟩

/-- A search breaks off by a fault or with the failure of the plan evaluated last. -/
def Breaks (s : Search Op) (stop : Stop PlanError DropFlags) : Prop :=
  (∃ f, stop.failure = .fault f) ∨
    ∃ flags, s.evaluate (.ofDropped s.flow flags) = .error stop.failure ∧
      stop.done.getLast? = some flags

theorem StopsAfter.breaks {stop : Stop PlanError DropFlags} (h : s.StopsAfter trials stop) :
    s.Breaks stop := by
  cases h with
  | fault f => exact Or.inl ⟨f, rfl⟩
  | failure hroom h => exact Or.inr ⟨_, h, by simp⟩

theorem StopsAfter.prefix_done {stop : Stop PlanError DropFlags} (h : s.StopsAfter trials stop) :
    trials.map Trial.dropped <+: stop.done := by
  cases h with
  | fault f => exact List.prefix_rfl
  | failure hroom h => exact List.prefix_append _ _

theorem StopsAfter.length_le {stop : Stop PlanError DropFlags} (h : s.StopsAfter trials stop)
    (hrecord : s.Record trials) : stop.done.length ≤ s.maxTrials := by
  cases h with
  | fault f => simpa using hrecord.length_le
  | failure hroom h => simpa using Nat.succ_le_of_lt hroom

/-- What a part of a search ends with, which goes on from a history, unless the search breaks off
after a history that continues it. -/
abbrev Ends (s : Search Op) (trials : List Trial) (post : α → Prop) : SearchStep α → Prop :=
  Outcome post fun stop => ∃ more, s.Continues trials more ∧ s.StopsAfter more stop

theorem record_nil (s : Search Op) : s.Record [] := ⟨by simp, Nat.zero_le _⟩

theorem Continues.refl (h : s.Record trials) : s.Continues trials trials :=
  ⟨List.prefix_rfl, h⟩

theorem Continues.trans {last : List Trial} (h : s.Continues trials more)
    (hlast : s.Continues more last) : s.Continues trials last :=
  ⟨h.extend.trans hlast.extend, hlast.record⟩

theorem ends_ofChecked (h : s.Record trials) (x : Checked α) :
    s.Ends trials (fun a => x = .ok a) (SearchStep.ofChecked trials x) := by
  cases x with
  | ok a => exact rfl
  | error f => exact ⟨trials, .refl h, .fault f⟩

/-- What comes after a part of a search breaks off after that part. -/
theorem Continues.ends {post : α → Prop} {x : SearchStep α} (h : s.Continues trials more)
    (hx : s.Ends more post x) : s.Ends trials post x :=
  hx.imp_error fun _ ⟨last, hlast, hstop⟩ => ⟨last, h.trans hlast, hstop⟩

theorem maxTrials_pos (s : Search Op) : 0 < s.maxTrials :=
  Nat.lt_of_lt_of_le Nat.zero_lt_one (Nat.le_max_right _ _)

theorem lt_of_not_exhausted (h : ¬ s.Exhausted trials) : trials.length < s.maxTrials :=
  Nat.lt_of_not_le h

theorem attempt_ends (flags : DropFlags) (h : s.Record trials)
    (hroom : trials.length < s.maxTrials) :
    s.Ends trials (fun result => result.2 = trials ++ [⟨flags, result.1⟩] ∧
      s.Continues trials result.2) (s.attempt trials flags) := by
  rw [attempt]
  cases hreport : s.evaluate (.ofDropped s.flow flags) with
  | error failure => exact ⟨trials, .refl h, .failure hroom hreport⟩
  | ok report =>
    refine ⟨rfl, List.prefix_append _ _, fun t ht => ?_, by simpa using Nat.succ_le_of_lt hroom⟩
    rcases List.mem_append.mp ht with ht | ht
    · exact h.evaluated t ht
    · obtain rfl := List.mem_singleton.mp ht
      exact hreport

theorem refine_ends (order : List Candidate) (flags : DropFlags) (peak cost : Nat)
    (h : s.Record trials) :
    s.Ends trials (s.Continues trials) (s.refine order flags peak cost trials) := by
  induction order generalizing flags peak cost trials with
  | nil => exact .refl h
  | cons c rest ih =>
    rw [refine]
    split
    · exact .refl h
    · rename_i hroom
      split
      · exact ih flags peak cost h
      · refine (attempt_ends _ h (lt_of_not_exhausted hroom)).bind fun result hresult => ?_
        obtain ⟨report, more⟩ := result
        have hcontinues := hresult.2
        have hrest : ∀ flags peak cost, s.Ends trials (s.Continues trials)
            (s.refine rest flags peak cost more) := fun flags peak cost =>
          hcontinues.ends ((ih flags peak cost hcontinues.record).imp fun _ => hcontinues.trans)
        dsimp only
        split
        · exact hrest ..
        · exact hrest ..

theorem greedy_ends (h : s.Record trials) :
    s.Ends trials (s.Continues trials) (s.greedy trials) := by
  rw [greedy]
  split
  · exact .refl h
  · exact (ends_ofChecked h _).bind fun order _ => refine_ends order _ _ _ h

end Search
end AndOrFlow
