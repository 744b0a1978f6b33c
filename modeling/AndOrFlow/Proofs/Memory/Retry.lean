import AndOrFlow.Proofs.Memory.Completion
import AndOrFlow.Proofs.Memory.Greedy
import AndOrFlow.Proofs.Memory.Peak
import AndOrFlow.Proofs.Memory.Respect

/-!
# The least budget that would do

A search that finds no plan names the least cost of the trials within the memory limit. Such a trial
is above the budget, so the sweep made it, and the sweep does not look at the budget. With that cost
as the budget the search makes it again, and can choose it or something better.
-/
namespace AndOrFlow

variable {Op : Type} {g : Dataflow Op} {z : Sizing} {b : Budget} {settings : Settings}
  {rule : GuessRule} {report : Report} {cost : Nat}

namespace SearchStep

/-- The search failed for want of a plan, and named a budget that would do. -/
def Suggests (outcome : SearchStep Selection) (cost : Nat) : Prop :=
  ∃ maxCost memoryLimit bestPeak done,
    outcome = .error ⟨.error (.infeasible maxCost memoryLimit bestPeak (some cost)), done⟩

def Meets (outcome : SearchStep Selection) (b : Budget) : Prop :=
  ∃ r, outcome = .ok r ∧ b.AdmitsPeak r.report.peak ∧ b.AdmitsCost r.report.recomputeCost

end SearchStep

namespace Search

variable {s : Search Op} {swept trials : List Trial}

theorem select_suggests_iff :
    (s.select (s.baseline report) trials).Suggests cost ↔
      ¬ s.budget.AdmitsPeak (s.settled report trials).report.peak ∧
        s.budget.leastCostOf trials = some cost := by
  rw [select_eq]
  split
  · rename_i hpeak
    simp [SearchStep.Suggests, hpeak]
  · rename_i hpeak
    simp [SearchStep.Suggests, hpeak]

theorem select_meets (h : s.Continues [s.baseline report] trials) {t : Trial} (ht : t ∈ trials)
    (hcost : s.budget.AdmitsCost t.report.recomputeCost)
    (hpeak : s.budget.AdmitsPeak t.report.peak) :
    (s.select (s.baseline report) trials).Meets s.budget := by
  have hsettled : s.budget.AdmitsPeak (s.settled report trials).report.peak :=
    hpeak.mono (settled_peak_le ht hcost)
  rw [select_eq, if_pos hsettled]
  exact ⟨_, rfl, hsettled, (admitsCost_settled_iff h).mpr ⟨t, ht, hcost⟩⟩

/-- A search that takes its course does so again with the budget that it names, and meets it. -/
theorem Course.retry (h : s.Course report swept trials) (hcounts : s.CountsDrops)
    (hreports : s.ReportsAll) (hbytes : ∀ st ∈ s.flow.steps, ∃ n, s.sizing.bytes st.shape = .ok n)
    (hsuggests : s.run.Suggests cost) :
    s.budget.maxCost < cost ∧
      (s.withBudget { s.budget with maxCost := cost }).run.Meets
        { s.budget with maxCost := cost } := by
  rw [h.run_eq, select_suggests_iff] at hsuggests
  obtain ⟨habove, hleast⟩ := hsuggests
  have hlt := lt_of_leastCostOf habove hleast
  obtain ⟨t, ht, hpeak, rfl⟩ := (Budget.leastCostOf_eq_some_iff.mp hleast).1
  have hswept := (h.mem_swept_or_admitsCost hcounts t ht).resolve_right (Nat.not_le_of_lt hlt)
  refine ⟨hlt, ?_⟩
  have hreports' : (s.withBudget { s.budget with maxCost := t.report.recomputeCost }).ReportsAll :=
    hreports
  obtain ⟨again, hagain, -⟩ := (greedy_completes swept hreports' hbytes).exists_ok
  have hcourse : (s.withBudget { s.budget with maxCost := t.report.recomputeCost }).Course report
      swept again := ⟨h.baseline_eq, sweep_withBudget.trans h.sweep_eq, hagain⟩
  rw [hcourse.run_eq]
  exact select_meets hcourse.continues (hcourse.greedy_continues.extend.subset hswept)
    (Nat.le_refl _) hpeak

end Search

/-- A search that fails and names a budget succeeds with that budget, whichever thresholds it
guesses. -/
theorem planWith_retry (g : Dataflow Op) (z : Sizing) (b : Budget) (settings : Settings)
    (htotal : (g.volumes z).toList.sum < Word.limit)
    (hcost : (g.steps.toList.map Step.cost).sum < Word.limit) :
    (∀ rule cost, (Search.simulated g z b settings rule).run.Suggests cost →
      b.maxCost < cost ∧ (Search.simulated g z { b with maxCost := cost } settings rule).run.Meets
        { b with maxCost := cost }) ∧
    ∀ cost, (planWith g z b settings).Suggests cost →
      b.maxCost < cost ∧
        (planWith g z { b with maxCost := cost } settings).Meets { b with maxCost := cost } := by
  have hrun : ∀ rule cost, (Search.simulated g z b settings rule).run.Suggests cost →
      b.maxCost < cost ∧ (Search.simulated g z { b with maxCost := cost } settings rule).run.Meets
        { b with maxCost := cost } := by
    intro rule cost hsuggests
    rcases (Search.simulated g z b settings rule).course_or_breaks with
      ⟨report, swept, trials, hcourse⟩ | ⟨stop, hstop, hbreaks⟩
    · obtain ⟨-, w, hflow, -⟩ := simulate_eq_ok_iff.mp (simulate_baseline hcourse.continues)
      have hbytes := Workload.exists_bytes hflow
      have hsuits : z.Suits g := ⟨hbytes, htotal, hcost⟩
      have hreports : (Search.simulated g z b settings rule).ReportsAll := hsuits.exists_report
      exact hcourse.retry (Search.simulated_countsDrops g z b settings rule) hreports hbytes hsuggests
    · -- What breaks off a simulated search is a fault, which names no budget.
      obtain ⟨maxCost, memoryLimit, bestPeak, done, hfailed⟩ := hsuggests
      obtain rfl := Except.error.inj (hstop.symm.trans hfailed)
      obtain ⟨f, hfault⟩ := Search.exists_fault_of_breaks hbreaks
      cases hfault
  exact ⟨hrun, hrun .standard⟩

def chainStep (bytes : Nat) (reads : List Nat) : Step Unit where
  source := 0
  kind := .and
  span := ⟨0, 1⟩
  inputs := reads.map .step
  op := ()
  shape := ⟨[1, bytes]⟩
  params := 0
  cost := 1

theorem earlyRead?_unevenChain :
    earlyRead? 0 [chainStep 1 [], chainStep 2 [0], chainStep 1 [1], chainStep 2 [2]] = none := by
  decide

/-- Four steps, each of which reads the one before. -/
def unevenChain : Dataflow Unit where
  steps := #[chainStep 1 [], chainStep 2 [0], chainStep 1 [1], chainStep 2 [2]]
  inputShape := ⟨[1, 1]⟩
  reads_lt i s hs j hj := by
    have hlt := lt_of_earlyRead?_eq_none earlyRead?_unevenChain i s (by simpa using hs) j hj
    rwa [Nat.zero_add] at hlt

theorem planWith_retry_unevenChain :
    (unevenChain.volumes ⟨1, .u8⟩).toList.sum < Word.limit ∧
      (unevenChain.steps.toList.map Step.cost).sum < Word.limit ∧
      (planWith unevenChain ⟨1, .u8⟩ { maxCost := 0, memoryLimit := some 5 } {}).Suggests 2 ∧
      (planWith unevenChain ⟨1, .u8⟩ { maxCost := 2, memoryLimit := some 5 } {}).Meets
        { maxCost := 2, memoryLimit := some 5 } := by
  have htotal : (unevenChain.volumes ⟨1, .u8⟩).toList.sum < Word.limit := by decide +kernel
  have hcost : (unevenChain.steps.toList.map Step.cost).sum < Word.limit := by decide +kernel
  have hsuggests : (planWith unevenChain ⟨1, .u8⟩ { maxCost := 0, memoryLimit := some 5 }
      {}).Suggests 2 :=
    ⟨0, some 5, 6, [#[false, false, false, false], #[false, false, false, false],
      #[true, false, true, false], #[true, false, true, false]], by decide +kernel⟩
  exact ⟨htotal, hcost, hsuggests,
    ((planWith_retry unevenChain ⟨1, .u8⟩ _ {} htotal hcost).2 2 hsuggests).2⟩

end AndOrFlow
