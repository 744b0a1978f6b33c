import AndOrFlow.Proofs.Memory.Retry
import Mathlib.Order.Bounds.Basic

/-!
# The verdict of a search

An evaluator that never fails leaves a search nothing to report but its own verdict. Of the plans
evaluated within the recompute budget, the first of lowest peak and then of lowest cost is returned
if its peak is within the memory limit, and otherwise it says by how much the limit was missed,
together with the least cost of the plans that did not miss it.
-/
namespace AndOrFlow

variable {Op : Type} {g : Dataflow Op} {z : Sizing} {b : Budget} {settings : Settings}
  {evaluate : Plan → Report} {report : Report} {swept trials : List Trial}

namespace SearchStep

/-- The drop flags of the plans evaluated, in order. -/
def evaluated : SearchStep Selection → List DropFlags
  | .ok r => r.trials.map Trial.dropped
  | .error stop => stop.done

def Faults (outcome : SearchStep Selection) : Prop := ∃ f done, outcome = .error ⟨.fault f, done⟩

end SearchStep

/-- The plans with these drop flags, and what the evaluator says of them. -/
def trialsBy (g : Dataflow Op) (evaluate : Plan → Report) (plans : List DropFlags) : List Trial :=
  plans.map fun flags => ⟨flags, evaluate (.ofDropped g flags)⟩

structure SearchStep.Verdict (g : Dataflow Op) (b : Budget) (trials : List Trial) (t : Trial)
    (outcome : SearchStep Selection) : Prop where
  returned_iff : outcome = .ok ⟨.ofDropped g t.dropped, t.report, trials⟩ ↔
    b.AdmitsPeak t.report.peak
  refused : ¬ b.AdmitsPeak t.report.peak → ∃ least,
    outcome = .error ⟨.error (.infeasible b.maxCost b.memoryLimit t.report.peak least),
      trials.map Trial.dropped⟩ ∧
    (∀ cost, least = some cost ↔ IsLeast
      { c | ∃ u ∈ trials, b.AdmitsPeak u.report.peak ∧ u.report.recomputeCost = c } cost) ∧
    ∀ cost, least = some cost → b.maxCost < cost

/-- The outcome is the verdict on the trials made, the first of which retains everything. -/
structure SearchStep.Judges (g : Dataflow Op) (b : Budget) (evaluate : Plan → Report)
    (outcome : SearchStep Selection) : Prop where
  first : (trialsBy g evaluate outcome.evaluated).head? =
    some ⟨Array.replicate g.size false, evaluate (.retainAll g)⟩
  verdict : b.affordable (trialsBy g evaluate outcome.evaluated) ≠ [] →
    ∃ t, Trial.FirstBest (b.affordable (trialsBy g evaluate outcome.evaluated)) t ∧
      outcome.Verdict g b (trialsBy g evaluate outcome.evaluated) t

theorem Budget.leastCostOf_eq_some_iff_isLeast {cost : Nat} :
    b.leastCostOf trials = some cost ↔ IsLeast
      { c | ∃ u ∈ trials, b.AdmitsPeak u.report.peak ∧ u.report.recomputeCost = c } cost := by
  rw [leastCostOf_eq_some_iff]
  refine and_congr_right fun _ => ⟨?_, fun hle u hu hpeak => hle ⟨u, hu, hpeak, rfl⟩⟩
  rintro hle _ ⟨u, hu, hpeak, rfl⟩
  exact hle u hu hpeak

namespace Search

def total (g : Dataflow Op) (z : Sizing) (b : Budget) (settings : Settings)
    (evaluate : Plan → Report) : Search Op :=
  ⟨g, z, b, settings, .standard, fun p => .ok (evaluate p)⟩

theorem evaluated_select (s : Search Op) (first : Trial) (trials : List Trial) :
    (s.select first trials).evaluated = trials.map Trial.dropped := by
  rw [select]
  split <;> rfl

theorem not_faults_select (s : Search Op) (first : Trial) (trials : List Trial) :
    ¬ (s.select first trials).Faults := by
  rintro ⟨f, done, h⟩
  rw [select] at h
  split at h <;> cases h

theorem Record.trialsBy_eq (h : (total g z b settings evaluate).Record trials) :
    trialsBy g evaluate (trials.map Trial.dropped) = trials := by
  rw [trialsBy, List.map_map]
  refine (List.map_congr_left fun t ht => ?_).trans (List.map_id trials)
  have hreport : evaluate (.ofDropped g t.dropped) = t.report :=
    Except.ok.inj (h.evaluated t ht)
  simp [hreport]

theorem select_verdict (s : Search Op) {t : Trial} (ht : s.budget.bestOf trials = some t) :
    (s.select (s.baseline report) trials).Verdict s.flow s.budget trials t := by
  have hsettled : s.settled report trials = t := by rw [settled, ht, Option.getD_some]
  have hselect := select_eq s report trials
  rw [hsettled] at hselect
  rw [hselect]
  constructor
  · split
    · rename_i hpeak
      simp [hpeak]
    · rename_i hpeak
      simp [hpeak]
  · intro hpeak
    rw [if_neg hpeak]
    refine ⟨_, rfl, fun cost => Budget.leastCostOf_eq_some_iff_isLeast, fun cost hleast => ?_⟩
    rw [← hsettled] at hpeak
    exact lt_of_leastCostOf hpeak hleast

theorem Course.judges (h : (total g z b settings evaluate).Course report swept trials) :
    SearchStep.Judges g b evaluate (total g z b settings evaluate).run := by
  have hcontinues := h.continues
  have htrials : trialsBy g evaluate (total g z b settings evaluate).run.evaluated = trials := by
    rw [h.run_eq, evaluated_select, hcontinues.record.trialsBy_eq]
  constructor
  · obtain ⟨rest, hrest⟩ := hcontinues.extend
    have hbase := hcontinues.record.evaluated _
      (hcontinues.extend.subset (List.mem_singleton_self _))
    rw [baseline, Plan.ofDropped_replicate] at hbase
    obtain rfl : evaluate (.retainAll g) = report := Except.ok.inj hbase
    rw [htrials, ← hrest]
    rfl
  · rw [htrials]
    intro hsome
    obtain ⟨u, hu⟩ := List.exists_mem_of_ne_nil _ hsome
    obtain ⟨hmem, hcost⟩ := Budget.mem_affordable.mp hu
    obtain ⟨t, ht⟩ := Budget.exists_bestOf hmem hcost
    rw [h.run_eq]
    exact ⟨t, Budget.firstBest_of_bestOf ht, select_verdict (total g z b settings evaluate) ht⟩

end Search

/-- A search with an evaluator that never fails ends with its verdict, or with a fault: sizes and
thresholds are still computed in words. There is no fault where the bytes of every step come out,
all of them together are a word, and fewer than `2 ^ 62` thresholds are spaced. -/
theorem search_verdict (g : Dataflow Op) (z : Sizing) (b : Budget) (settings : Settings)
    (evaluate : Plan → Report) :
    ((search g z b settings fun p => .ok (evaluate p)).Faults ∨
      SearchStep.Judges g b evaluate (search g z b settings fun p => .ok (evaluate p))) ∧
    ((∀ s ∈ g.steps, ∃ n, z.bytes s.shape = .ok n) → (g.volumes z).toList.sum < Word.limit →
      settings.spaced < 2 ^ 62 →
      ¬ (search g z b settings fun p => .ok (evaluate p)).Faults) := by
  constructor
  · rcases (Search.total g z b settings evaluate).course_or_breaks with
      ⟨report, swept, trials, hcourse⟩ | ⟨stop, hstop, ⟨f, hfault⟩ | ⟨flags, hfailure, -⟩⟩
    · exact Or.inr hcourse.judges
    · exact Or.inl ⟨f, stop.done, hstop.trans (by rw [← hfault])⟩
    · cases hfailure
  · intro hbytes htotal hspaced
    have hguesses := Search.guesses_standard (s := Search.total g z b settings evaluate) rfl hbytes
      htotal
    have hroom : 3 * 2 ^ 62 + settings.spaced < Word.limit := by
      rw [Word.limit]
      omega
    obtain ⟨report, swept, trials, hcourse⟩ := Search.exists_course
      (fun flags => ⟨evaluate (.ofDropped g flags), rfl⟩) hguesses hroom
      (fun guess => Nat.lt_of_le_of_lt (Nat.min_le_right _ _) (by decide)) hbytes
    rw [show (search g z b settings fun p => .ok (evaluate p)) =
      (Search.total g z b settings evaluate).run from rfl, hcourse.run_eq]
    exact Search.not_faults_select _ _ _

/-- An evaluator by which every dropped output saves one byte and costs one. -/
def countDropped (p : Plan) : Report :=
  ⟨6 - p.numDropped, 6 - p.numDropped, 6 - p.numDropped, p.numDropped⟩

theorem search_verdict_unevenChain :
    (⟨1, .u8⟩ : Sizing).Suits unevenChain ∧ ({} : Settings).spaced < 2 ^ 62 ∧
      SearchStep.Judges unevenChain { maxCost := 1, memoryLimit := some 4 } countDropped
        (search unevenChain ⟨1, .u8⟩ { maxCost := 1, memoryLimit := some 4 } {}
          fun p => .ok (countDropped p)) ∧
      search unevenChain ⟨1, .u8⟩ { maxCost := 1, memoryLimit := some 4 } {}
          (fun p => .ok (countDropped p)) =
        .error ⟨.error (.infeasible 1 (some 4) 5 (some 2)),
          [#[false, false, false, false], #[false, false, false, false],
            #[true, false, true, false], #[true, false, true, false],
            #[false, true, false, false]]⟩ := by
  have hsuits : (⟨1, .u8⟩ : Sizing).Suits unevenChain :=
    Sizing.suits_of_pos (by decide +kernel) (by decide +kernel) (by decide +kernel)
  obtain ⟨hends, hwords⟩ := search_verdict unevenChain ⟨1, .u8⟩
    { maxCost := 1, memoryLimit := some 4 } {} countDropped
  exact ⟨hsuits, by decide,
    hends.resolve_left (hwords hsuits.bytes hsuits.total_lt (by decide)), by decide +kernel⟩

end AndOrFlow
