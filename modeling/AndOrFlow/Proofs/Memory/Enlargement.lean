import AndOrFlow.Proofs.Memory.Retry

/-!
# Searching with more to spend

With a larger recompute budget a search makes the same trials up to the greedy phase, so it does at
least as well as any of those. The greedy phase may set out from another plan, or keep a drop that
the smaller budget rules out, and then it does not come by the plans that the smaller budget led to.
What it ends with can be worse.
-/
namespace AndOrFlow

variable {Op : Type} {g : Dataflow Op} {z : Sizing} {b : Budget} {settings : Settings}
  {rule : GuessRule} {r : Selection} {small large : Nat}

namespace Search

variable {s : Search Op} {report : Report} {swept trials : List Trial}

theorem select_eq_ok_iff : s.select (s.baseline report) trials = .ok r ↔
    s.budget.AdmitsPeak (s.settled report trials).report.peak ∧
      r = ⟨.ofDropped s.flow (s.settled report trials).dropped,
        (s.settled report trials).report, trials⟩ := by
  rw [select_eq]
  split
  · rename_i hpeak
    simp [hpeak, eq_comm]
  · rename_i hpeak
    simp [hpeak]

theorem Course.unique {last : List Trial} {first : Report} {before : List Trial}
    (h : s.Course report swept trials) (h' : (s.withBudget b).Course first before last) :
    first = report ∧ before = swept := by
  have hbaseline : s.attempt [] (Array.replicate s.flow.size false) =
      .ok (first, [s.baseline first]) := h'.baseline_eq
  rw [h.baseline_eq] at hbaseline
  obtain ⟨rfl, -⟩ := Prod.mk.inj (Except.ok.inj hbaseline)
  have hsweep := h'.sweep_eq
  rw [sweep_withBudget] at hsweep
  exact ⟨rfl, Except.ok.inj (hsweep.symm.trans h.sweep_eq)⟩

theorem Course.peak_le (h : s.Course report swept r.trials) (hrun : s.run = .ok r) {t : Trial}
    (ht : t ∈ r.trials) (hcost : s.budget.AdmitsCost t.report.recomputeCost) :
    r.report.peak ≤ t.report.peak := by
  rw [h.run_eq] at hrun
  rw [(select_eq_ok_iff.mp hrun).2]
  exact settled_peak_le ht hcost

/-- A smaller budget that admits every trial makes no difference. -/
theorem Course.eq_of_withBudget (h : s.Course report swept trials) (hcounts : s.CountsDrops)
    (hle : b.maxCost ≤ s.budget.maxCost)
    (hall : ∀ t ∈ trials, b.AdmitsCost t.report.recomputeCost) {other : Selection}
    (hrun : s.run = .ok r) (hother : (s.withBudget b).run = .ok other) : r = other := by
  have hbest : b.bestOf trials = s.budget.bestOf trials :=
    Budget.bestOf_congr fun t ht => ⟨fun hsmall => Nat.le_trans hsmall hle, fun _ => hall t ht⟩
  have hsettled : (s.withBudget b).settled report trials = s.settled report trials := by
    rw [settled, settled, ← hbest]
    rfl
  rw [h.run_eq] at hrun
  rw [(h.withBudget hcounts hle hall).run_eq] at hother
  obtain ⟨-, rfl⟩ := select_eq_ok_iff.mp hrun
  obtain ⟨-, rfl⟩ := select_eq_ok_iff.mp hother
  rw [hsettled]
  rfl

end Search

/-- A simulated search that finds a plan has taken its course, and the plan is sound. -/
theorem course_and_sound (h : (Search.simulated g z b settings rule).run = .ok r) :
    (∃ report swept, (Search.simulated g z b settings rule).Course report swept r.trials) ∧
      r.Sound g z b settings := by
  rcases (Search.simulated g z b settings rule).course_or_breaks with
    ⟨report, swept, trials, hcourse⟩ | ⟨stop, hstop, -⟩
  · have hsound := select_guaranteed hcourse.continues
    rw [hcourse.run_eq] at h
    rw [h] at hsound
    obtain ⟨-, rfl⟩ := Search.select_eq_ok_iff.mp h
    exact ⟨⟨report, swept, hcourse⟩, hsound⟩
  · rw [hstop] at h
    cases h

/-- What a larger budget keeps of the selection `r` under a smaller one, where `swept` are the
trials made before the greedy phase. -/
structure Selection.Keeps (g : Dataflow Op) (small : Nat) (swept : List Trial)
    (r larger : Selection) : Prop where
  /-- The larger budget does as well as any plan of the sweep within the smaller one. -/
  peak_le_swept : ∀ t ∈ swept, t.report.recomputeCost ≤ small →
    larger.report.peak ≤ t.report.peak
  /-- It does as well as the smaller one, provided it comes by the same plan. -/
  peak_le : (∃ t ∈ larger.trials, Plan.ofDropped g t.dropped = r.plan) →
    larger.report.peak ≤ r.report.peak
  /-- It makes no difference unless a plan above the smaller budget is evaluated. -/
  eq : (∀ t ∈ larger.trials, t.report.recomputeCost ≤ small) → larger = r

/-- A larger budget shares the sweep with the smaller one, and keeps what was found there. -/
theorem planWith_larger_budget (g : Dataflow Op) (z : Sizing) (settings : Settings)
    (small large : Nat) (r larger : Selection) (hle : small ≤ large)
    (hsmall : planWith g z { maxCost := small } settings = .ok r)
    (hlarge : planWith g z { maxCost := large } settings = .ok larger) :
    ∃ report swept,
      (Search.simulated g z { maxCost := small } settings .standard).Course report swept r.trials ∧
      (Search.simulated g z { maxCost := large } settings .standard).Course report swept
        larger.trials ∧
      r.Keeps g small swept larger := by
  obtain ⟨⟨report, swept, hcourse⟩, hsound⟩ := course_and_sound hsmall
  obtain ⟨⟨first, before, hlarger⟩, -⟩ := course_and_sound hlarge
  obtain ⟨rfl, rfl⟩ := hcourse.unique hlarger
  refine ⟨first, before, hcourse, hlarger, fun t ht hcost => ?_, ?_, fun hall => ?_⟩
  · have hmem := hlarger.greedy_continues.extend.subset ht
    exact hlarger.peak_le hlarge hmem (hcost.trans hle)
  · rintro ⟨t, ht, hplan⟩
    -- A plan has one report, so the trial is what the smaller budget selects.
    have hreport : simulate g (.ofDropped g t.dropped) z = .ok t.report :=
      hlarger.continues.record.evaluated t ht
    rw [hplan, hsound.report_eq] at hreport
    have hsame : r.report = t.report := Except.ok.inj hreport
    have hcost : r.report.recomputeCost ≤ small := hsound.cost_le
    rw [hsame] at hcost ⊢
    exact hlarger.peak_le hlarge ht (hcost.trans hle)
  · exact hlarger.eq_of_withBudget (b := { maxCost := small })
      (Search.simulated_countsDrops g z _ settings .standard) hle hall hlarge hsmall

/-- What the chain is given with a budget of one: the greedy phase drops the second output. -/
def secondDropped : Selection where
  plan := .ofDropped unevenChain #[false, true, false, false]
  report := ⟨4, 4, 4, 1⟩
  trials :=
    [⟨#[false, false, false, false], ⟨6, 6, 6, 0⟩⟩, ⟨#[false, false, false, false], ⟨6, 6, 6, 0⟩⟩,
      ⟨#[true, false, true, false], ⟨5, 5, 5, 2⟩⟩, ⟨#[true, false, true, false], ⟨5, 5, 5, 2⟩⟩,
      ⟨#[false, true, false, false], ⟨4, 4, 4, 1⟩⟩]

/-- And with a budget of two: a threshold plan drops the first and the third output, which leaves
nothing to pay for another drop. -/
def othersDropped : Selection where
  plan := .ofDropped unevenChain #[true, false, true, false]
  report := ⟨5, 5, 5, 2⟩
  trials :=
    [⟨#[false, false, false, false], ⟨6, 6, 6, 0⟩⟩, ⟨#[false, false, false, false], ⟨6, 6, 6, 0⟩⟩,
      ⟨#[true, false, true, false], ⟨5, 5, 5, 2⟩⟩, ⟨#[true, false, true, false], ⟨5, 5, 5, 2⟩⟩]

theorem planWith_one :
    planWith unevenChain ⟨1, .u8⟩ { maxCost := 1 } {} = .ok secondDropped := by decide +kernel

theorem planWith_two :
    planWith unevenChain ⟨1, .u8⟩ { maxCost := 2 } {} = .ok othersDropped := by decide +kernel

theorem planWith_larger_budget_unevenChain :
    1 ≤ 2 ∧ planWith unevenChain ⟨1, .u8⟩ { maxCost := 1 } {} = .ok secondDropped ∧
      planWith unevenChain ⟨1, .u8⟩ { maxCost := 2 } {} = .ok othersDropped ∧
      ∃ report swept,
        (Search.simulated unevenChain ⟨1, .u8⟩ { maxCost := 1 } {} .standard).Course report swept
          secondDropped.trials ∧
        (Search.simulated unevenChain ⟨1, .u8⟩ { maxCost := 2 } {} .standard).Course report swept
          othersDropped.trials ∧
        secondDropped.Keeps unevenChain 1 swept othersDropped :=
  ⟨by decide, planWith_one, planWith_two,
    planWith_larger_budget unevenChain ⟨1, .u8⟩ {} 1 2 _ _ (by decide) planWith_one planWith_two⟩

/-- The larger budget can be worse: one that admits a plan of the sweep may keep the greedy phase
from a better plan. -/
theorem planWith_larger_budget_higher_peak :
    ¬ ∀ r larger, planWith unevenChain ⟨1, .u8⟩ { maxCost := 1 } {} = .ok r →
      planWith unevenChain ⟨1, .u8⟩ { maxCost := 2 } {} = .ok larger →
      larger.report.peak ≤ r.report.peak := by
  intro h
  have hpeak : 5 ≤ 4 := h _ _ planWith_one planWith_two
  omega

end AndOrFlow
