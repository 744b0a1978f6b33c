import AndOrFlow.Proofs.Memory.Cost
import AndOrFlow.Proofs.Memory.Course

/-!
# What a search guarantees

A search that evaluates by simulation and does not fault returns a plan within its budget and no
worse than the one that retains everything, or says that it found none below the memory limit. No
threshold that is guessed on the way matters for that.
-/
namespace AndOrFlow

variable {Op : Type} {g : Dataflow Op} {z : Sizing} {b : Budget} {settings : Settings}
  {rule : GuessRule} {report : Report}

namespace Plan

theorem ofDropped_replicate (g : Dataflow Op) (n : Nat) :
    ofDropped g (Array.replicate n false) = retainAll g := by
  refine ofDropped_eq_retainAll fun i hdrops => ?_
  have hflag := hdrops.2
  rw [Array.getElem?_replicate] at hflag
  split at hflag <;> simp at hflag

theorem recomputeCost_retainAll (g : Dataflow Op) : (retainAll g).recomputeCost g = .ok 0 := by
  rw [recomputeCost, List.filter_eq_nil_iff.mpr]
  · rfl
  · intro e he
    rw [Array.toList_zip] at he
    have hmem := (List.of_mem_zip he).2
    simp only [retainAll, Array.toList_replicate] at hmem
    simp [List.eq_of_mem_replicate hmem, Decision.isRecompute, Decision.isRetain]

end Plan

def Search.simulated (g : Dataflow Op) (z : Sizing) (b : Budget) (settings : Settings)
    (rule : GuessRule) : Search Op :=
  ⟨g, z, b, settings, rule, fun p => simulate g p z⟩

/-- What breaks off a search by simulation is a fault. -/
theorem Search.exists_fault_of_breaks {stop : Stop PlanError DropFlags}
    (h : (Search.simulated g z b settings rule).Breaks stop) : ∃ f, stop.failure = .fault f := by
  rcases h with hfault | ⟨flags, hfailure, -⟩
  · exact hfault
  · exact exists_fault_of_simulate (Plan.size_ofDropped g flags) hfailure

structure Selection.Sound (g : Dataflow Op) (z : Sizing) (b : Budget) (settings : Settings)
    (r : Selection) : Prop where
  plan_eq : r.plan = .ofDropped g r.plan.dropped
  report_eq : simulate g r.plan z = .ok r.report
  cost_eq : r.plan.recomputeCost g = .ok r.report.recomputeCost
  cost_le : r.report.recomputeCost ≤ b.maxCost
  peak_le : ∃ peak, peakOf g (.retainAll g) z = .ok peak ∧ r.report.peak ≤ peak
  peak_le_limit : ∀ limit, b.memoryLimit = some limit → r.report.peak ≤ limit
  trials_pos : 1 ≤ r.trials.length
  trials_le : r.trials.length ≤ max 1 settings.maxTrials

/-- How a search ends: soundly, by a fault, or because of its memory limit. -/
def SearchStep.Guaranteed (g : Dataflow Op) (z : Sizing) (b : Budget) (settings : Settings)
    (outcome : SearchStep Selection) : Prop :=
  match outcome with
  | .ok r => r.Sound g z b settings
  | .error stop => (∃ f, stop.failure = .fault f) ∨
      ∃ limit bestPeak leastBudget, b.memoryLimit = some limit ∧
        stop.failure = .error (.infeasible b.maxCost (some limit) bestPeak leastBudget)

theorem simulate_baseline {trials : List Trial}
    (h : (Search.simulated g z b settings rule).Continues
      [(Search.simulated g z b settings rule).baseline report] trials) :
    simulate g (.retainAll g) z = .ok report := by
  have hmem := h.extend.subset (List.mem_singleton.mpr rfl)
  have hreport := h.record.evaluated _ hmem
  rwa [Search.baseline, Plan.ofDropped_replicate] at hreport

theorem exists_bestOf_le_baseline {trials : List Trial}
    (h : (Search.simulated g z b settings rule).Continues
      [(Search.simulated g z b settings rule).baseline report] trials) :
    ∃ best, b.bestOf trials = some best ∧ best ∈ trials ∧
      b.AdmitsCost best.report.recomputeCost ∧ best.report.peak ≤ report.peak := by
  have hmem := h.extend.subset (List.mem_singleton.mpr rfl)
  -- The baseline replays nothing, so it is within any budget and takes part in the choice.
  have hplan : (Plan.retainAll g).Rebuilds g := by
    rw [← Plan.ofDropped_replicate g 0]
    exact Plan.rebuilds_ofDropped g _
  have hcost := recomputeCost_of_simulate hplan (simulate_baseline h)
  rw [Plan.recomputeCost_retainAll] at hcost
  have hzero : report.recomputeCost = 0 := (Except.ok.inj hcost).symm
  have hadmits : b.AdmitsCost report.recomputeCost := by
    rw [hzero]
    exact Nat.zero_le _
  obtain ⟨best, hbest⟩ := Budget.exists_bestOf hmem hadmits
  obtain ⟨hin, hwithin⟩ := Budget.mem_of_bestOf hbest
  exact ⟨best, hbest, hin, hwithin, Budget.peak_le_of_bestOf hbest hmem hadmits⟩

theorem select_guaranteed {trials : List Trial}
    (h : (Search.simulated g z b settings rule).Continues
      [(Search.simulated g z b settings rule).baseline report] trials) :
    SearchStep.Guaranteed g z b settings ((Search.simulated g z b settings rule).select
      ((Search.simulated g z b settings rule).baseline report) trials) := by
  obtain ⟨best, hbest, hmem, hwithin, hpeak⟩ := exists_bestOf_le_baseline h
  have hbest' : (Search.simulated g z b settings rule).budget.bestOf trials = some best := hbest
  rw [Search.select, hbest', Option.getD_some]
  split
  · rename_i hlimit
    have hreport : simulate g (.ofDropped g best.dropped) z = .ok best.report :=
      h.record.evaluated best hmem
    have hbase := simulate_baseline h
    have hlength : 1 ≤ trials.length := h.extend.length_le
    have htrials : trials.length ≤ max settings.maxTrials 1 := h.record.length_le
    exact {
      plan_eq := (Plan.ofDropped_dropped g best.dropped).symm
      report_eq := hreport
      cost_eq := recomputeCost_of_simulate (Plan.rebuilds_ofDropped g _) hreport
      cost_le := hwithin
      peak_le := ⟨report.peak, by rw [peakOf, hbase]; rfl, hpeak⟩
      peak_le_limit := hlimit
      trials_pos := hlength
      trials_le := Nat.max_comm .. ▸ htrials }
  · rename_i hlimit
    refine Or.inr ?_
    cases hmemory : b.memoryLimit with
    | none =>
      refine absurd ?_ hlimit
      intro limit hsome
      have hsome' : b.memoryLimit = some limit := hsome
      rw [hmemory] at hsome'
      cases hsome'
    | some limit => exact ⟨limit, _, _, rfl, by rw [← hmemory]; rfl⟩

/-- A search for a plan keeps its promises, whichever thresholds it guesses. -/
theorem planWith_guaranteed (g : Dataflow Op) (z : Sizing) (b : Budget) (settings : Settings) :
    (∀ rule, SearchStep.Guaranteed g z b settings (Search.simulated g z b settings rule).run) ∧
      SearchStep.Guaranteed g z b settings (planWith g z b settings) := by
  have hrun : ∀ rule,
      SearchStep.Guaranteed g z b settings (Search.simulated g z b settings rule).run := by
    intro rule
    rcases (Search.simulated g z b settings rule).run_cases with
      ⟨report, trials, hcontinues, hrun⟩ | ⟨stop, hrun, hbreaks⟩
    · rw [hrun]
      exact select_guaranteed hcontinues
    · rw [hrun]
      exact Or.inl (Search.exists_fault_of_breaks hbreaks)
  exact ⟨hrun, hrun .standard⟩

end AndOrFlow
