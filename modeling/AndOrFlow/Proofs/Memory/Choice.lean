import AndOrFlow.Memory.Trial

/-!
# The best trial

Of the trials within the recompute budget, the one chosen is better than all before it, and none
after it is better.
-/
namespace AndOrFlow

namespace Trial

variable {a b c t : Trial} {trials : List Trial}

theorem Better.of_not_better (h : a.Better b) (hc : ¬ c.Better b) : a.Better c := by
  unfold Better at *
  omega

/-- Among the trials, `t` is the first of those that none is better than. -/
structure FirstBest (trials : List Trial) (t : Trial) : Prop where
  split : ∃ before after, trials = before ++ t :: after ∧
    (∀ u ∈ before, t.Better u) ∧ ∀ u ∈ after, ¬ u.Better t

namespace FirstBest

theorem mem (h : FirstBest trials t) : t ∈ trials := by
  obtain ⟨before, after, rfl, -, -⟩ := h.split
  simp

theorem not_better (h : FirstBest trials t) (ha : a ∈ trials) : ¬ a.Better t := by
  obtain ⟨before, after, rfl, hbefore, hafter⟩ := h.split
  rcases List.mem_append.mp ha with ha | ha
  · have hbetter := hbefore a ha
    unfold Better at *
    omega
  · rcases List.mem_cons.mp ha with rfl | ha
    · unfold Better
      omega
    · exact hafter a ha

theorem overtake (h : FirstBest trials t) (ha : a.Better t) : FirstBest (trials ++ [a]) a :=
  ⟨trials, [], rfl, fun _ hu => ha.of_not_better (h.not_better hu), by simp⟩

theorem stay (h : FirstBest trials t) (ha : ¬ a.Better t) : FirstBest (trials ++ [a]) t := by
  obtain ⟨before, after, rfl, hbefore, hafter⟩ := h.split
  refine ⟨before, after ++ [a], by simp, hbefore, fun u hu => ?_⟩
  rcases List.mem_append.mp hu with hu | hu
  · exact hafter u hu
  · obtain rfl := List.mem_singleton.mp hu
    exact ha

end FirstBest
end Trial

namespace Budget

variable {b : Budget} {t u : Trial} {trials : List Trial}

def affordable (b : Budget) (trials : List Trial) : List Trial :=
  trials.filter fun t => b.AdmitsCost t.report.recomputeCost

theorem mem_affordable : t ∈ b.affordable trials ↔
    t ∈ trials ∧ b.AdmitsCost t.report.recomputeCost := by
  simp [affordable]

/-- The choice depends on which trials are within the budget. -/
theorem bestOf_congr {c : Budget} (h : ∀ t ∈ trials,
    b.AdmitsCost t.report.recomputeCost ↔ c.AdmitsCost t.report.recomputeCost) :
    b.bestOf trials = c.bestOf trials := by
  rw [bestOf, bestOf, List.filter_congr fun t ht => decide_eq_decide.mpr (h t ht)]

theorem foldl_keep (rest done : List Trial) (best : Option Trial)
    (h : best.elim (done = []) (Trial.FirstBest done)) :
    (rest.foldl bestOf.keep best).elim (done ++ rest = []) (Trial.FirstBest (done ++ rest)) := by
  induction rest generalizing done best with
  | nil => simpa using h
  | cons a rest ih =>
    -- One more trial is behind, and `best` is the first best of those behind.
    rw [List.foldl_cons, List.append_cons]
    apply ih
    cases best with
    | none =>
      obtain rfl : done = [] := h
      exact ⟨[], [], rfl, by simp, by simp⟩
    | some t =>
      have ht : Trial.FirstBest done t := h
      rw [bestOf.keep]
      split
      · rename_i ha
        exact ht.overtake ha
      · rename_i ha
        exact ht.stay ha

theorem bestOf_spec (b : Budget) (trials : List Trial) :
    (b.bestOf trials).elim (b.affordable trials = []) (Trial.FirstBest (b.affordable trials)) :=
  foldl_keep (b.affordable trials) [] none rfl

theorem firstBest_of_bestOf (h : b.bestOf trials = some t) :
    Trial.FirstBest (b.affordable trials) t := by
  simpa [h] using b.bestOf_spec trials

theorem exists_bestOf (ht : t ∈ trials) (hcost : b.AdmitsCost t.report.recomputeCost) :
    ∃ best, b.bestOf trials = some best := by
  cases h : b.bestOf trials with
  | some best => exact ⟨best, rfl⟩
  | none =>
    have hnone : b.affordable trials = [] := by simpa [h] using b.bestOf_spec trials
    have hmem := mem_affordable.mpr ⟨ht, hcost⟩
    simp [hnone] at hmem

theorem mem_of_bestOf (h : b.bestOf trials = some t) :
    t ∈ trials ∧ b.AdmitsCost t.report.recomputeCost :=
  mem_affordable.mp (firstBest_of_bestOf h).mem

theorem peak_le_of_bestOf (h : b.bestOf trials = some t) (hu : u ∈ trials)
    (hcost : b.AdmitsCost u.report.recomputeCost) : t.report.peak ≤ u.report.peak := by
  have hnot := (firstBest_of_bestOf h).not_better (mem_affordable.mpr ⟨hu, hcost⟩)
  exact Nat.le_of_not_lt fun hlt => hnot (Or.inl hlt)

theorem leastCostOf_eq_some_iff {cost : Nat} : b.leastCostOf trials = some cost ↔
    (∃ t ∈ trials, b.AdmitsPeak t.report.peak ∧ t.report.recomputeCost = cost) ∧
      ∀ t ∈ trials, b.AdmitsPeak t.report.peak → cost ≤ t.report.recomputeCost := by
  simp only [leastCostOf, List.min?_eq_some_iff, List.mem_map, List.mem_filter,
    decide_eq_true_eq, and_assoc]
  refine and_congr_right fun _ => ⟨fun hle t ht hpeak => hle _ ⟨t, ht, hpeak, rfl⟩, ?_⟩
  rintro hle _ ⟨t, ht, hpeak, rfl⟩
  exact hle t ht hpeak

end Budget
end AndOrFlow
