import AndOrFlow.Proofs.Memory.Verdict

/-!
# The memory limit as a filter

A search looks at its memory limit when all its trials are made, and to name the least budget that
would do. So a search with a limit makes the trials that it makes without one and settles on the
same plan; the limit only decides whether this plan is returned.
-/
namespace AndOrFlow

variable {Op : Type} {g : Dataflow Op} {z : Sizing} {b : Budget} {settings : Settings}
  {evaluate : Plan → Report} {report : Report} {trials : List Trial}

namespace Search

variable {s : Search Op} {limit : Nat}

def limitedTo (s : Search Op) (limit : Option Nat) : Search Op :=
  s.withBudget { s.budget with memoryLimit := limit }

/-- All that a search evaluates, before it chooses. -/
def history (s : Search Op) : SearchStep (Report × List Trial) := do
  let (report, trials) ← s.attempt [] (Array.replicate s.flow.size false)
  let trials ← s.sweep trials
  let trials ← s.greedy trials
  return (report, trials)

theorem run_eq_history (s : Search Op) :
    s.run = s.history >>= fun (report, trials) => s.select (s.baseline report) trials := by
  simp only [run, history, bind_assoc, pure_bind]
  rfl

theorem refine_limitedTo (limit : Option Nat) (order : List Candidate) (flags : DropFlags)
    (peak cost : Nat) (trials : List Trial) :
    (s.limitedTo limit).refine order flags peak cost trials =
      s.refine order flags peak cost trials := by
  induction order generalizing flags peak cost trials with
  | nil => rfl
  | cons c rest ih =>
    simp only [refine, ih]
    rfl

theorem sweep_limitedTo (limit : Option Nat) (trials : List Trial) :
    (s.limitedTo limit).sweep trials = s.sweep trials :=
  sweep_withBudget

theorem greedy_limitedTo (limit : Option Nat) (trials : List Trial) :
    (s.limitedTo limit).greedy trials = s.greedy trials := by
  have hbest : (s.limitedTo limit).budget.bestOf trials = s.budget.bestOf trials := rfl
  rw [greedy, greedy, hbest]
  cases s.budget.bestOf trials with
  | none => rfl
  | some best =>
    simp only [refine_limitedTo]
    rfl

theorem history_limitedTo (limit : Option Nat) : (s.limitedTo limit).history = s.history := by
  simp only [history, sweep_limitedTo, greedy_limitedTo]
  rfl

theorem Course.history_eq {swept : List Trial} (h : s.Course report swept trials) :
    s.history = .ok (report, trials) := by
  simp only [history, h.baseline_eq, h.sweep_eq, h.greedy_eq, bind, Except.bind]
  rfl

theorem run_of_history_error {stop : Stop PlanError DropFlags} (h : s.history = .error stop) :
    s.run = .error stop := by
  rw [run_eq_history, h]
  rfl

/-- With an evaluator that never fails, a history is cut short by a fault only. -/
theorem fault_of_history_total {stop : Stop PlanError DropFlags}
    (h : (total g z b settings evaluate).history = .error stop) : ∃ f, stop.failure = .fault f := by
  rcases (total g z b settings evaluate).course_or_breaks with
    ⟨report, swept, trials, hcourse⟩ | ⟨broken, hbroken, ⟨f, hfault⟩ | ⟨flags, hfailure, -⟩⟩
  · rw [hcourse.history_eq] at h
    cases h
  · obtain rfl : stop = broken :=
      Except.error.inj ((run_of_history_error h).symm.trans hbroken)
    exact ⟨f, hfault⟩
  · cases hfailure

theorem select_limitedTo (limit : Nat) (report : Report) (trials : List Trial) :
    (s.limitedTo (some limit)).select ((s.limitedTo (some limit)).baseline report) trials =
      if (s.settled report trials).report.peak ≤ limit then
        .ok ⟨.ofDropped s.flow (s.settled report trials).dropped,
          (s.settled report trials).report, trials⟩
      else
        .error ⟨.error (.infeasible s.budget.maxCost (some limit)
          (s.settled report trials).report.peak
          ((s.limitedTo (some limit)).budget.leastCostOf trials)), trials.map Trial.dropped⟩ := by
  have hadmits : (s.limitedTo (some limit)).budget.AdmitsPeak
      (s.settled report trials).report.peak ↔ (s.settled report trials).report.peak ≤ limit := by
    simp [Budget.AdmitsPeak, limitedTo, withBudget]
  rw [select_eq]
  exact if_congr hadmits rfl rfl

theorem select_of_no_limit (hnone : s.budget.memoryLimit = none) (report : Report)
    (trials : List Trial) :
    s.select (s.baseline report) trials =
      .ok ⟨.ofDropped s.flow (s.settled report trials).dropped,
        (s.settled report trials).report, trials⟩ := by
  rw [select_eq, if_pos]
  simp [Budget.AdmitsPeak, hnone]

end Search

namespace SearchStep

/-- The search failed for want of a plan, and settled on one with this peak. -/
def Misses (outcome : SearchStep Selection) (peak : Nat) : Prop :=
  ∃ maxCost memoryLimit leastBudget done,
    outcome = .error ⟨.error (.infeasible maxCost memoryLimit peak leastBudget), done⟩

/-- How the outcome with a memory limit follows from the one without. -/
structure Filters (maxCost : Nat) (unlimited : SearchStep Selection)
    (limited : Nat → SearchStep Selection) : Prop where
  evaluated_eq : ∀ limit, (limited limit).evaluated = unlimited.evaluated
  faults : unlimited.Faults → ∀ limit, limited limit = unlimited
  returns : ¬ unlimited.Faults → ∃ r, unlimited = .ok r ∧ ∀ limit,
    (limited limit = .ok r ↔ r.report.peak ≤ limit) ∧
    (¬ r.report.peak ≤ limit → ∃ leastBudget, limited limit =
      .error ⟨.error (.infeasible maxCost (some limit) r.report.peak leastBudget),
        r.trials.map Trial.dropped⟩)
  /-- The peak that is missed will do as the limit. -/
  again : ∀ limit peak, (limited limit).Misses peak →
    ∃ r, limited peak = .ok r ∧ r.report.peak = peak ∧ unlimited = .ok r

end SearchStep

namespace Search

variable {s : Search Op}

theorem filters_of_history (hnone : s.budget.memoryLimit = none)
    (hfault : ∀ stop, s.history = .error stop → ∃ f, stop.failure = .fault f) :
    SearchStep.Filters s.budget.maxCost s.run fun limit => (s.limitedTo (some limit)).run := by
  cases hhistory : s.history with
  | error stop =>
    have hrun : s.run = .error stop := run_of_history_error hhistory
    have hlimited : ∀ limit, (s.limitedTo (some limit)).run = .error stop := fun limit =>
      run_of_history_error ((history_limitedTo (some limit)).trans hhistory)
    obtain ⟨f, hf⟩ := hfault stop hhistory
    refine ⟨fun limit => ?_, fun _ limit => ?_, fun hno => ?_, fun limit peak hmisses => ?_⟩
    · rw [hlimited, hrun]
    · rw [hlimited, hrun]
    · exact absurd ⟨f, stop.done, hrun.trans (by rw [← hf])⟩ hno
    · obtain ⟨maxCost, memoryLimit, least, done, hmissed⟩ := hmisses
      obtain rfl := Except.error.inj ((hlimited limit).symm.trans hmissed)
      cases hf
  | ok result =>
    obtain ⟨report, trials⟩ := result
    have hrun : s.run = .ok ⟨.ofDropped s.flow (s.settled report trials).dropped,
        (s.settled report trials).report, trials⟩ := by
      rw [run_eq_history, hhistory]
      exact select_of_no_limit hnone report trials
    have hlimited : ∀ limit, (s.limitedTo (some limit)).run =
        (s.limitedTo (some limit)).select ((s.limitedTo (some limit)).baseline report) trials := by
      intro limit
      rw [run_eq_history, history_limitedTo, hhistory]
      rfl
    refine ⟨fun limit => ?_, fun hfaults => ?_, fun _ => ⟨_, hrun, fun limit => ?_⟩,
      fun limit peak hmisses => ?_⟩
    · rw [hlimited, hrun, evaluated_select]
      rfl
    · obtain ⟨f, done, h⟩ := hfaults
      cases hrun.symm.trans h
    · rw [hlimited, select_limitedTo]
      split
      · rename_i hpeak
        simp [hpeak]
      · rename_i hpeak
        simp [hpeak]
    · obtain ⟨maxCost, memoryLimit, least, done, hmissed⟩ := hmisses
      rw [hlimited, select_limitedTo] at hmissed
      split at hmissed
      · cases hmissed
      · cases hmissed
        refine ⟨_, ?_, rfl, hrun⟩
        rw [hlimited, select_limitedTo, if_pos (Nat.le_refl _)]

end Search

/-- With an evaluator that never fails, the memory limit filters what the search returns without
one. -/
theorem search_memoryLimit (g : Dataflow Op) (z : Sizing) (maxCost : Nat) (settings : Settings)
    (evaluate : Plan → Report) :
    SearchStep.Filters maxCost
      (search g z { maxCost := maxCost } settings fun p => .ok (evaluate p))
      (fun limit => search g z { maxCost := maxCost, memoryLimit := some limit } settings
        fun p => .ok (evaluate p)) :=
  Search.filters_of_history (s := Search.total g z { maxCost := maxCost } settings evaluate) rfl
    fun _ hstop => Search.fault_of_history_total hstop

theorem search_memoryLimit_unevenChain :
    (search unevenChain ⟨1, .u8⟩ { maxCost := 1, memoryLimit := some 4 } {}
      fun p => .ok (countDropped p)).Misses 5 ∧
    ∃ r, search unevenChain ⟨1, .u8⟩ { maxCost := 1, memoryLimit := some 5 } {}
        (fun p => .ok (countDropped p)) = .ok r ∧ r.report.peak = 5 ∧
      search unevenChain ⟨1, .u8⟩ { maxCost := 1 } {} (fun p => .ok (countDropped p)) = .ok r := by
  have hmisses : (search unevenChain ⟨1, .u8⟩ { maxCost := 1, memoryLimit := some 4 } {}
      fun p => .ok (countDropped p)).Misses 5 :=
    ⟨1, some 4, some 2, [#[false, false, false, false], #[false, false, false, false],
      #[true, false, true, false], #[true, false, true, false], #[false, true, false, false]],
      by decide +kernel⟩
  exact ⟨hmisses, (search_memoryLimit unevenChain ⟨1, .u8⟩ 1 {} countDropped).again 4 5 hmisses⟩

end AndOrFlow
