import AndOrFlow.Proofs.Memory.Verdict

/-!
# What a search learns of its evaluator

A search sees of its evaluator what it answers to the plans in the history, and nothing else.
Another evaluator that says the same of these plans leads to the same history and the same outcome,
whatever it says of all others. The plans of the history are thus the calls of the evaluator.
-/
namespace AndOrFlow

variable {Op α β : Type} {s : Search Op} {other : Evaluator} {trials : List Trial}
  {history : α → List Trial} {next : β → List Trial} {x y : SearchStep α}

/-- The plans evaluated up to the end of a part whose value holds this history. -/
def SearchStep.calls (history : α → List Trial) : SearchStep α → List DropFlags
  | .ok a => (history a).map Trial.dropped
  | .error stop => stop.done

theorem SearchStep.calls_selection (x : SearchStep Selection) :
    x.calls Selection.trials = x.evaluated := by
  cases x <;> rfl

theorem SearchStep.calls_trials (x : SearchStep (List Trial)) :
    x.calls (fun trials => trials) = x.called := by
  cases x <;> rfl

namespace Search

def answeredBy (s : Search Op) (other : Evaluator) : Search Op := { s with evaluate := other }

/-- The other evaluator says the same of these plans. -/
def Agrees (s : Search Op) (other : Evaluator) (plans : List DropFlags) : Prop :=
  ∀ flags ∈ plans, other (.ofDropped s.flow flags) = s.evaluate (.ofDropped s.flow flags)

theorem Agrees.subset {plans more : List DropFlags} (h : s.Agrees other more)
    (hsub : plans ⊆ more) : s.Agrees other plans :=
  fun flags hflags => h flags (hsub hflags)

/-- A part of a search, going on from these trials, and what it is with the other evaluator. The
plans evaluated before stay evaluated, and if all that are evaluated have the same answers, so has
the part. -/
structure Follows (s : Search Op) (other : Evaluator) (history : α → List Trial)
    (trials : List Trial) (x y : SearchStep α) : Prop where
  grows : trials.map Trial.dropped <+: x.calls history
  same : s.Agrees other (x.calls history) → y = x

theorem Follows.bind {f f' : α → SearchStep β} (hx : s.Follows other history trials x y)
    (hf : ∀ a, s.Follows other next (history a) (f a) (f' a)) :
    s.Follows other next trials (x >>= f) (y >>= f') := by
  cases x with
  | error stop =>
    refine ⟨hx.grows, fun hagrees => ?_⟩
    rw [hx.same hagrees]
    rfl
  | ok a =>
    refine ⟨hx.grows.trans (hf a).grows, fun hagrees => ?_⟩
    -- What the second part evaluates includes what the first one did.
    have hfirst : y = .ok a := hx.same (hagrees.subset (hf a).grows.subset)
    rw [hfirst]
    exact (hf a).same hagrees

/-- Both searches take the same branch. -/
theorem Follows.ite {p : Prop} [Decidable p] {x' y' : SearchStep α}
    (hthen : s.Follows other history trials x y) (helse : s.Follows other history trials x' y') :
    s.Follows other history trials (if p then x else x') (if p then y else y') := by
  split
  · exact hthen
  · exact helse

theorem follows_pure {a : α} (h : history a = trials) :
    s.Follows other history trials (.ok a) (.ok a) := by
  refine ⟨?_, fun _ => rfl⟩
  rw [← h]
  exact List.prefix_rfl

theorem follows_ofChecked (x : Checked α) :
    s.Follows other (fun _ => trials) trials (SearchStep.ofChecked trials x)
      (SearchStep.ofChecked trials x) := by
  refine ⟨?_, fun _ => rfl⟩
  cases x with
  | ok a => exact List.prefix_rfl
  | error f => exact List.prefix_rfl

theorem attempt_follows (flags : DropFlags) :
    s.Follows other Prod.snd trials (s.attempt trials flags)
      ((s.answeredBy other).attempt trials flags) := by
  have hcalls : (s.attempt trials flags).calls Prod.snd = trials.map Trial.dropped ++ [flags] := by
    rw [attempt]
    cases s.evaluate (.ofDropped s.flow flags) with
    | ok report => exact List.map_append
    | error failure => rfl
  constructor
  · rw [hcalls]
    exact List.prefix_append _ _
  · intro hagrees
    have hanswer : (s.answeredBy other).evaluate (.ofDropped (s.answeredBy other).flow flags) =
        s.evaluate (.ofDropped s.flow flags) := hagrees flags (by simp [hcalls])
    rw [attempt, attempt, hanswer]

theorem attemptAll_follows (plans : List DropFlags) :
    s.Follows other (fun trials => trials) trials (s.attemptAll trials plans)
      ((s.answeredBy other).attemptAll trials plans) := by
  induction plans generalizing trials with
  | nil => exact follows_pure rfl
  | cons flags rest ih =>
    rw [attemptAll_cons, attemptAll_cons]
    exact (attempt_follows flags).bind fun result => ih

theorem guessThresholds_follows (n guess : Nat) (lowest : Option (Nat × Nat)) :
    s.Follows other Prod.fst trials (s.guessThresholds n guess lowest trials)
      ((s.answeredBy other).guessThresholds n guess lowest trials) := by
  induction n generalizing guess lowest trials with
  | zero => exact follows_pure rfl
  | succ n ih =>
    rw [guessThresholds, guessThresholds]
    apply Follows.ite
    · exact follows_pure rfl
    · exact (follows_ofChecked _).bind fun blocks =>
        (attempt_follows blocks.flags).bind fun result => ih _ _

theorem spacing_follows (best guess : Nat) (trials : List Trial) :
    s.Follows other (fun _ => trials) trials (s.spacing best guess trials)
      ((s.answeredBy other).spacing best guess trials) := by
  have hsame : (s.answeredBy other).spacing best guess trials = s.spacing best guess trials := rfl
  rw [hsame, spacing]
  apply Follows.ite
  · exact follows_pure rfl
  · exact (follows_ofChecked _).bind fun plans => follows_pure rfl

theorem batch_follows (trials : List Trial) :
    s.Follows other Prod.fst trials (s.batch trials) ((s.answeredBy other).batch trials) := by
  unfold batch
  apply Follows.ite
  · exact follows_pure rfl
  · refine (guessThresholds_follows _ _ _).bind fun result => ?_
    obtain ⟨more, _ | ⟨best, guess⟩⟩ := result
    · exact follows_pure rfl
    · exact (spacing_follows best guess more).bind fun plans => follows_pure rfl

theorem sweep_follows (trials : List Trial) :
    s.Follows other (fun trials => trials) trials (s.sweep trials)
      ((s.answeredBy other).sweep trials) := by
  rw [sweep_eq_batch, sweep_eq_batch]
  exact (batch_follows trials).bind fun result => attemptAll_follows result.2

theorem refine_follows (order : List Candidate) (flags : DropFlags) (peak cost : Nat)
    (trials : List Trial) :
    s.Follows other (fun trials => trials) trials (s.refine order flags peak cost trials)
      ((s.answeredBy other).refine order flags peak cost trials) := by
  induction order generalizing flags peak cost trials with
  | nil => exact follows_pure rfl
  | cons c rest ih =>
    rw [refine, refine]
    apply Follows.ite
    · exact follows_pure rfl
    · apply Follows.ite
      · exact ih flags peak cost trials
      · refine (attempt_follows _).bind fun result => ?_
        obtain ⟨report, more⟩ := result
        apply Follows.ite
        · exact ih _ report.peak report.recomputeCost more
        · exact ih flags peak cost more

theorem greedy_follows (trials : List Trial) :
    s.Follows other (fun trials => trials) trials (s.greedy trials)
      ((s.answeredBy other).greedy trials) := by
  have hbest : (s.answeredBy other).budget.bestOf trials = s.budget.bestOf trials := rfl
  rw [greedy, greedy, hbest]
  cases s.budget.bestOf trials with
  | none => exact follows_pure rfl
  | some best => exact (follows_ofChecked _).bind fun order => refine_follows order _ _ _ trials

theorem select_follows (first : Trial) (trials : List Trial) :
    s.Follows other Selection.trials trials (s.select first trials)
      ((s.answeredBy other).select first trials) := by
  refine ⟨?_, fun _ => rfl⟩
  rw [SearchStep.calls_selection, evaluated_select]

theorem run_follows (s : Search Op) (other : Evaluator) :
    s.Follows other Selection.trials [] s.run (s.answeredBy other).run :=
  (attempt_follows _).bind fun result => (sweep_follows result.2).bind fun swept =>
    (greedy_follows swept).bind fun trials => select_follows _ trials

/-- The outcome depends on the evaluator only through the plans in the history. -/
theorem run_of_agrees (h : s.Agrees other s.run.evaluated) : (s.answeredBy other).run = s.run := by
  rw [← SearchStep.calls_selection] at h
  exact (run_follows s other).same h

end Search
end AndOrFlow
