import AndOrFlow.Proofs.Memory.Tally

/-!
# The cost of a simulation

A dropped output is rebuilt once: from the moment it is rebuilt it stays in memory up to its own
step, and its own step needs it. So what a simulation has paid in the end is the cost of the dropped
steps, each counted once.
-/
namespace AndOrFlow

namespace Word

theorem foldlM_add_eq_ok_iff {xs : List Nat} {a s : Nat} (ha : a < limit) :
    xs.foldlM add a = .ok s ↔ a + xs.sum = s ∧ s < limit := by
  induction xs generalizing a with
  | nil =>
    simp only [List.foldlM_nil, List.sum_nil, Nat.add_zero]
    constructor
    · intro h
      obtain rfl : a = s := Except.ok.inj h
      exact ⟨rfl, ha⟩
    · rintro ⟨rfl, -⟩
      rfl
  | cons x xs ih =>
    simp only [List.foldlM_cons, bind_eq_ok_iff, add_eq_ok_iff, List.sum_cons]
    constructor
    · rintro ⟨b, ⟨rfl, hb⟩, h⟩
      obtain ⟨hsum, hs⟩ := (ih hb).mp h
      exact ⟨by omega, hs⟩
    · rintro ⟨hsum, hs⟩
      have hb : a + x < limit := by omega
      exact ⟨a + x, ⟨rfl, hb⟩, (ih hb).mpr ⟨by omega, hs⟩⟩

theorem sum_eq_ok_iff {xs : List Nat} {s : Nat} : sum xs = .ok s ↔ xs.sum = s ∧ s < limit := by
  simpa [sum] using foldlM_add_eq_ok_iff (Nat.two_pow_pos 64)

end Word

variable {Op : Type} {g : Dataflow Op} {w : Workload} {p : Plan} {z : Sizing} {r : Report}
  {j : Nat}

theorem simulate_eq_ok_iff : simulate g p z = .ok r ↔
    p.size = g.size ∧ ∃ w, Workload.ofFlow g z = .ok w ∧ w.run p = .ok r := by
  simp only [simulate, bind_eq_ok_iff, Failure.demand_eq_ok_iff, exists_and_left]
  simp

/-- On a plan for the graph a simulation fails at most by a fault. -/
theorem exists_fault_of_simulate {failure : Failure PlanError} (hsize : p.size = g.size)
    (h : simulate g p z = .error failure) : ∃ f, failure = .fault f := by
  rw [simulate, Failure.demand, if_pos hsize] at h
  cases hw : Workload.ofFlow g z with
  | error f =>
    rw [hw] at h
    exact ⟨f, (Except.error.inj h).symm⟩
  | ok w =>
    rw [hw] at h
    change (monadLift (w.run p) : Except (Failure PlanError) Report) = _ at h
    cases hr : w.run p with
    | ok r =>
      rw [hr] at h
      cases h
    | error f =>
      rw [hr] at h
      exact ⟨f, (Except.error.inj h).symm⟩

namespace Workload

/-- In the end every dropped output has been rebuilt, and no other. -/
theorem rebuiltFrom_zero (hw : w.Describes g) (hp : p.Rebuilds g) :
    w.rebuiltFrom p 0 = (Finset.range g.size).filter fun j => p.isDropped j = true := by
  ext j
  simp only [mem_rebuiltFrom, Finset.mem_filter, Finset.mem_range]
  constructor
  · rintro ⟨c, -, -, v, -, hj⟩
    have hdrop := hp.isDropped hj
    exact ⟨hp.lt_size hdrop, hdrop⟩
  · rintro ⟨hj, hdrop⟩
    exact ⟨j, Nat.zero_le j, hw.size_eq ▸ hj, j, List.mem_cons_self .., hp.self_mem hdrop⟩

theorem recomputeCost_of_run (hw : w.Describes g) (hp : p.Rebuilds g) (h : w.run p = .ok r) :
    r.recomputeCost =
        ∑ j ∈ (Finset.range g.size).filter (fun j => p.isDropped j = true), w.costs.getD j 0 ∧
      r.recomputeCost < Word.limit := by
  rw [run_eq_memoryAt] at h
  obtain ⟨m, -, h⟩ := bind_eq_ok_iff.mp h
  obtain ⟨n, hn, h⟩ := bind_eq_ok_iff.mp h
  obtain rfl := Except.ok.inj h
  have htally := tallies_memoryAt hw hp (t := .after 0) (Nat.zero_le _) hn
  rw [← rebuiltFrom_zero hw hp]
  exact ⟨htally.cost_eq, htally.cost_lt⟩

end Workload

/-- A sum over the marked entries of two lists side by side. -/
theorem sum_map_filter_zip {α β : Type} (cost : α → Nat) (mark : β → Bool) (xs : List α)
    (ys : List β) (h : xs.length = ys.length) :
    (((xs.zip ys).filter fun e => mark e.2).map fun e => cost e.1).sum =
      ∑ j ∈ (Finset.range xs.length).filter (fun j => (ys[j]?.map mark).getD false = true),
        (xs[j]?.map cost).getD 0 := by
  rw [Finset.sum_filter]
  induction xs generalizing ys with
  | nil => simp
  | cons x xs ih =>
    cases ys with
    | nil => simp at h
    | cons y ys =>
      have hrest := ih ys (by simpa using h)
      rw [List.length_cons, Finset.sum_range_succ', List.zip_cons_cons]
      simp only [List.getElem?_cons_succ, List.getElem?_cons_zero, Option.map_some,
        Option.getD_some, ← hrest]
      cases hy : mark y <;> simp [hy, Nat.add_comm]

theorem recomputeCost_of_simulate (hp : p.Rebuilds g) (h : simulate g p z = .ok r) :
    p.recomputeCost g = .ok r.recomputeCost := by
  obtain ⟨hsize, w, hflow, hrun⟩ := simulate_eq_ok_iff.mp h
  have hw := Workload.describes_of_ofFlow hflow
  obtain ⟨hcost, hlt⟩ := Workload.recomputeCost_of_run hw hp hrun
  have hlength : g.steps.toList.length = p.decisions.toList.length := by
    simpa [Plan.size, Dataflow.size] using hsize.symm
  refine Word.sum_eq_ok_iff.mpr ⟨?_, hlt⟩
  rw [Array.toList_zip, sum_map_filter_zip Step.cost Decision.isRecompute _ _ hlength, hcost,
    hw.costs_eq]
  refine Finset.sum_congr ?_ fun j _ => ?_
  · ext j
    rw [Finset.mem_filter, Finset.mem_filter]
    simp [Plan.isDropped, Plan.decision?, Dataflow.size]
  · simp [Array.getD_eq_getD_getElem?]

end AndOrFlow
