import AndOrFlow.Proofs.Memory.Guarantee
import AndOrFlow.Proofs.Memory.Safety

/-!
# Searching with any evaluator

An evaluator may report a cost for the plan that retains everything, so there may be no plan within
the recompute budget. The search then falls back on that plan, and looks at its peak but not at its
cost. So what it selects is within the recompute budget just when some evaluated plan is.
-/
namespace AndOrFlow

variable {Op : Type} {s : Search Op} {trials : List Trial} {report : Report}

structure Selection.Accounted (g : Dataflow Op) (b : Budget) (evaluate : Evaluator)
    (r : Selection) : Prop where
  evaluated : ∀ t ∈ r.trials, evaluate (.ofDropped g t.dropped) = .ok t.report
  chosen : ∃ t ∈ r.trials, r.plan = .ofDropped g t.dropped ∧ r.report = t.report
  admitsPeak : b.AdmitsPeak r.report.peak
  peak_le : ∀ t ∈ r.trials, b.AdmitsCost t.report.recomputeCost → r.report.peak ≤ t.report.peak
  admitsCost_iff : b.AdmitsCost r.report.recomputeCost ↔
    ∃ t ∈ r.trials, b.AdmitsCost t.report.recomputeCost
  retains : ¬ b.AdmitsCost r.report.recomputeCost → r.plan = .retainAll g

/-- A search that finds no plan has a memory limit, and the plan it settled on is above it. -/
def Budget.Refuses (b : Budget) (stop : Stop PlanError DropFlags) : Prop :=
  ∃ limit bestPeak leastBudget, b.memoryLimit = some limit ∧ limit < bestPeak ∧
    stop.failure = .error (.infeasible b.maxCost (some limit) bestPeak leastBudget)

theorem Budget.exists_limit_of_not_admitsPeak {b : Budget} {peak : Nat} (h : ¬ b.AdmitsPeak peak) :
    ∃ limit, b.memoryLimit = some limit ∧ limit < peak := by
  simp only [AdmitsPeak, not_forall, Nat.not_le] at h
  obtain ⟨limit, hlimit, hlt⟩ := h
  exact ⟨limit, hlimit, hlt⟩

theorem Budget.AdmitsPeak.mono {b : Budget} {low high : Nat} (h : b.AdmitsPeak high)
    (hle : low ≤ high) : b.AdmitsPeak low :=
  fun limit hlimit => Nat.le_trans hle (h limit hlimit)

namespace Search

/-- The trial that a selection is made of. -/
def settled (s : Search Op) (report : Report) (trials : List Trial) : Trial :=
  (s.budget.bestOf trials).getD (s.baseline report)

theorem select_eq (s : Search Op) (report : Report) (trials : List Trial) :
    s.select (s.baseline report) trials =
      if s.budget.AdmitsPeak (s.settled report trials).report.peak then
        .ok ⟨.ofDropped s.flow (s.settled report trials).dropped,
          (s.settled report trials).report, trials⟩
      else
        .error ⟨.error (.infeasible s.budget.maxCost s.budget.memoryLimit
          (s.settled report trials).report.peak (s.budget.leastCostOf trials)),
          trials.map Trial.dropped⟩ := rfl

theorem settled_mem (h : s.Continues [s.baseline report] trials) :
    s.settled report trials ∈ trials := by
  rw [settled]
  cases hbest : s.budget.bestOf trials with
  | none => exact h.extend.subset (List.mem_singleton.mpr rfl)
  | some best => exact (Budget.mem_of_bestOf hbest).1

theorem settled_peak_le {t : Trial} (ht : t ∈ trials)
    (hcost : s.budget.AdmitsCost t.report.recomputeCost) :
    (s.settled report trials).report.peak ≤ t.report.peak := by
  obtain ⟨best, hbest⟩ := Budget.exists_bestOf ht hcost
  rw [settled, hbest, Option.getD_some]
  exact Budget.peak_le_of_bestOf hbest ht hcost

/-- A search that settles on a peak above the memory limit had no trial below it to pay for. -/
theorem lt_of_leastCostOf {cost : Nat}
    (h : ¬ s.budget.AdmitsPeak (s.settled report trials).report.peak)
    (hleast : s.budget.leastCostOf trials = some cost) : s.budget.maxCost < cost := by
  obtain ⟨t, ht, hpeak, rfl⟩ := (Budget.leastCostOf_eq_some_iff.mp hleast).1
  exact Nat.lt_of_not_le fun hcost => h (hpeak.mono (settled_peak_le ht hcost))

theorem admitsCost_settled_iff (h : s.Continues [s.baseline report] trials) :
    s.budget.AdmitsCost (s.settled report trials).report.recomputeCost ↔
      ∃ t ∈ trials, s.budget.AdmitsCost t.report.recomputeCost := by
  constructor
  · intro hcost
    exact ⟨_, settled_mem h, hcost⟩
  · rintro ⟨t, ht, hcost⟩
    obtain ⟨best, hbest⟩ := Budget.exists_bestOf ht hcost
    rw [settled, hbest, Option.getD_some]
    exact (Budget.mem_of_bestOf hbest).2

theorem settled_eq_baseline
    (h : ¬ s.budget.AdmitsCost (s.settled report trials).report.recomputeCost) :
    s.settled report trials = s.baseline report := by
  cases hbest : s.budget.bestOf trials with
  | none => rw [settled, hbest, Option.getD_none]
  | some best =>
    rw [settled, hbest, Option.getD_some] at h
    exact absurd (Budget.mem_of_bestOf hbest).2 h

theorem select_accounted (h : s.Continues [s.baseline report] trials) :
    Outcome (Selection.Accounted s.flow s.budget s.evaluate) s.budget.Refuses
      (s.select (s.baseline report) trials) := by
  rw [select_eq]
  split
  · rename_i hpeak
    exact {
      evaluated := h.record.evaluated
      chosen := ⟨_, settled_mem h, rfl, rfl⟩
      admitsPeak := hpeak
      peak_le := fun t ht hcost => settled_peak_le ht hcost
      admitsCost_iff := admitsCost_settled_iff h
      retains := fun hcost => by
        rw [settled_eq_baseline hcost, baseline, Plan.ofDropped_replicate] }
  · rename_i hpeak
    obtain ⟨limit, hlimit, hlt⟩ := Budget.exists_limit_of_not_admitsPeak hpeak
    exact ⟨limit, _, _, hlimit, hlt, by rw [← hlimit]⟩

end Search

/-- A search with any evaluator accounts for what it selects, breaks off, or has a memory limit that
it does not meet; it does not fail for want of a plan within the recompute budget. -/
theorem search_accounted (g : Dataflow Op) (z : Sizing) (b : Budget) (settings : Settings)
    (evaluate : Evaluator) :
    Outcome (Selection.Accounted g b evaluate)
      (fun stop => (Search.mk g z b settings .standard evaluate).Breaks stop ∨ b.Refuses stop)
      (search g z b settings evaluate) := by
  rw [search]
  rcases (Search.mk g z b settings .standard evaluate).run_cases with
    ⟨report, trials, hcontinues, hrun⟩ | ⟨stop, hrun, hbreaks⟩
  · rw [hrun]
    exact (Search.select_accounted hcontinues).imp_error fun stop hrefuses => Or.inr hrefuses
  · rw [hrun]
    exact Or.inl hbreaks

/-- The budget allows no recomputation, every plan is reported to cost five, and one of them is
returned. -/
theorem search_above_budget :
    ¬ ∀ r, search twoPaths ⟨1, .f32⟩ .noRecompute { guesses := 0, parallel := false }
        (fun _ => .ok ⟨1, 1, 1, 5⟩) = .ok r →
      r.report.recomputeCost ≤ Budget.noRecompute.maxCost := by
  intro h
  have hrun : search twoPaths ⟨1, .f32⟩ .noRecompute { guesses := 0, parallel := false }
      (fun _ => .ok ⟨1, 1, 1, 5⟩) = .ok ⟨.retainAll twoPaths, ⟨1, 1, 1, 5⟩,
        [⟨Array.replicate 5 false, ⟨1, 1, 1, 5⟩⟩]⟩ := by rfl
  have hcost : 5 ≤ 0 := h _ hrun
  omega

end AndOrFlow
