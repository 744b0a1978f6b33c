import AndOrFlow.Proofs.Memory.Guarantee
import Mathlib.Data.List.Sigma

/-!
# Dropping one output after the other

Where the reported cost of a plan is the cost of the steps that it drops, dropping one more step
adds the cost of that step. So the greedy phase knows beforehand what a plan will cost: it evaluates
none above the budget, and a larger budget makes a difference only if it lets one be evaluated that
the smaller one does not. Whatever is reported, no plan is evaluated twice in this phase.
-/
namespace AndOrFlow

variable {Op : Type} {g : Dataflow Op} {z : Sizing} {flags : DropFlags}

def Dataflow.dropCost (g : Dataflow Op) (flags : DropFlags) : Nat :=
  ∑ j ∈ (Finset.range g.size).filter (Plan.Drops g flags), (g.steps.map Step.cost).getD j 0

theorem recomputeCost_eq_dropCost {report : Report}
    (h : simulate g (.ofDropped g flags) z = .ok report) :
    report.recomputeCost = g.dropCost flags ∧ report.recomputeCost < Word.limit := by
  obtain ⟨-, w, hflow, hrun⟩ := simulate_eq_ok_iff.mp h
  have hw := Workload.describes_of_ofFlow hflow
  obtain ⟨hcost, hlt⟩ := Workload.recomputeCost_of_run hw (Plan.rebuilds_ofDropped g flags) hrun
  refine ⟨?_, hlt⟩
  rw [hcost, hw.costs_eq, Dataflow.dropCost]
  refine Finset.sum_congr (Finset.filter_congr fun j hj => ?_) fun _ _ => rfl
  exact Plan.isDropped_ofDropped (Finset.mem_range.mp hj)

theorem Plan.ofDropped_ne {t : DropFlags} {j : Nat} (hj : j < g.size)
    (ht : Plan.Drops g t j) (hflags : ¬ Plan.Drops g flags j) :
    Plan.ofDropped g t ≠ .ofDropped g flags := by
  intro heq
  have hdrop := (Plan.isDropped_ofDropped hj).mpr ht
  rw [heq] at hdrop
  exact hflags ((Plan.isDropped_ofDropped hj).mp hdrop)

namespace Candidate

variable {c d : Candidate} {order rest : List Candidate} {t : DropFlags}
  {tried : List DropFlags}

/-- The candidate is a step that the flags retain and that may be dropped. -/
structure Droppable (g : Dataflow Op) (flags : DropFlags) (c : Candidate) : Prop where
  lt_size : c.step < g.size
  retained : flags[c.step]? ≠ some true
  inner : g.output? ≠ some c.step
  cost_eq : c.cost = (g.steps.map Step.cost).getD c.step 0

theorem Droppable.drops_iff (h : c.Droppable g flags) (hsize : flags.size = g.size) (j : Nat) :
    Plan.Drops g (flags.setIfInBounds c.step true) j ↔ j = c.step ∨ Plan.Drops g flags j := by
  have hlt : c.step < flags.size := hsize ▸ h.lt_size
  have hinner := h.inner
  rw [Plan.Drops, Plan.Drops, Array.getElem?_setIfInBounds]
  by_cases hj : c.step = j
  · subst hj
    simp [hlt, hinner]
  · simp [hj, Ne.symm hj]

theorem Droppable.dropCost_eq (h : c.Droppable g flags) (hsize : flags.size = g.size) :
    g.dropCost (flags.setIfInBounds c.step true) = g.dropCost flags + c.cost := by
  have hnot : c.step ∉ (Finset.range g.size).filter (Plan.Drops g flags) :=
    fun hmem => h.retained (Finset.mem_filter.mp hmem).2.2
  have hfilter : (Finset.range g.size).filter
        (Plan.Drops g (flags.setIfInBounds c.step true)) =
      insert c.step ((Finset.range g.size).filter (Plan.Drops g flags)) := by
    ext j
    rw [Finset.mem_filter, Finset.mem_insert, Finset.mem_filter, h.drops_iff hsize]
    constructor
    · rintro ⟨hj, rfl | hdrops⟩
      · exact Or.inl rfl
      · exact Or.inr ⟨hj, hdrops⟩
    · rintro (rfl | ⟨hj, hdrops⟩)
      · exact ⟨Finset.mem_range.mpr h.lt_size, Or.inl rfl⟩
      · exact ⟨hj, Or.inr hdrops⟩
  rw [Dataflow.dropCost, hfilter, Finset.sum_insert hnot, ← h.cost_eq, Nat.add_comm]
  rfl

/-- Dropping a step leaves the others as they are. -/
theorem Droppable.of_ne (h : d.Droppable g flags) (hne : c.step ≠ d.step) :
    d.Droppable g (flags.setIfInBounds c.step true) := by
  refine ⟨h.lt_size, ?_, h.inner, h.cost_eq⟩
  rw [Array.getElem?_setIfInBounds, if_neg hne]
  exact h.retained

/-- Candidates that can still be dropped, each once, with a flag for every step. -/
structure Remaining (g : Dataflow Op) (order : List Candidate) (flags : DropFlags) : Prop where
  size_eq : flags.size = g.size
  droppable : ∀ c ∈ order, c.Droppable g flags
  nodup : (order.map Candidate.step).Nodup

theorem Remaining.skip (h : Remaining g (c :: rest) flags) :
    Remaining g rest flags where
  size_eq := h.size_eq
  droppable d hd := h.droppable d (List.mem_cons_of_mem _ hd)
  nodup := (List.nodup_cons.mp h.nodup).2

theorem Remaining.drop (h : Remaining g (c :: rest) flags) :
    Remaining g rest (flags.setIfInBounds c.step true) where
  size_eq := by rw [Array.size_setIfInBounds, h.size_eq]
  droppable d hd := by
    refine (h.droppable d (List.mem_cons_of_mem _ hd)).of_ne fun heq => ?_
    exact (List.nodup_cons.mp h.nodup).1 (heq ▸ List.mem_map_of_mem hd)
  nodup := h.skip.nodup

/-- The plan drops one of these candidates at least, and besides what the flags drop only these. -/
structure Adds (g : Dataflow Op) (order : List Candidate) (flags t : DropFlags) : Prop where
  gains : ∃ c ∈ order, Plan.Drops g t c.step
  within : ∀ j, Plan.Drops g t j → Plan.Drops g flags j ∨ ∃ c ∈ order, c.step = j

theorem Remaining.adds (h : Remaining g (c :: rest) flags) :
    Adds g (c :: rest) flags (flags.setIfInBounds c.step true) := by
  have hdrops := (h.droppable c (List.mem_cons_self ..)).drops_iff h.size_eq
  constructor
  · exact ⟨c, List.mem_cons_self .., (hdrops c.step).mpr (Or.inl rfl)⟩
  · intro j hj
    rcases (hdrops j).mp hj with rfl | hj
    · exact Or.inr ⟨c, List.mem_cons_self .., rfl⟩
    · exact Or.inl hj

theorem Adds.skip (h : Adds g rest flags t) : Adds g (c :: rest) flags t := by
  constructor
  · obtain ⟨d, hd, hdrops⟩ := h.gains
    exact ⟨d, List.mem_cons_of_mem _ hd, hdrops⟩
  · intro j hj
    exact (h.within j hj).imp_right fun ⟨d, hd, heq⟩ => ⟨d, List.mem_cons_of_mem _ hd, heq⟩

theorem Adds.of_drop (h : Adds g rest (flags.setIfInBounds c.step true) t)
    (hleft : Remaining g (c :: rest) flags) : Adds g (c :: rest) flags t := by
  constructor
  · exact h.skip.gains
  · intro j hj
    rcases h.skip.within j hj with hj | hj
    · exact hleft.adds.within j hj
    · exact Or.inr hj

theorem Remaining.not_drops (h : Remaining g order flags) (hc : c ∈ order) :
    ¬ Plan.Drops g flags c.step :=
  fun hdrops => (h.droppable c hc).retained hdrops.2

theorem Adds.ne (h : Adds g order flags t) (hleft : Remaining g order flags) :
    Plan.ofDropped g t ≠ .ofDropped g flags := by
  obtain ⟨c, hc, hdrops⟩ := h.gains
  exact Plan.ofDropped_ne (hleft.droppable c hc).lt_size hdrops (hleft.not_drops hc)

theorem Adds.ne_of_skip (h : Adds g rest flags t) (hleft : Remaining g (c :: rest) flags) :
    Plan.ofDropped g t ≠ .ofDropped g (flags.setIfInBounds c.step true) := by
  have hc := List.mem_cons_self (a := c) (l := rest)
  have hdrops := ((hleft.droppable c hc).drops_iff hleft.size_eq c.step).mpr (Or.inl rfl)
  refine (Plan.ofDropped_ne (hleft.droppable c hc).lt_size hdrops fun ht => ?_).symm
  rcases h.within c.step ht with hflags | ⟨d, hd, heq⟩
  · exact hleft.not_drops hc hflags
  · exact (List.nodup_cons.mp hleft.nodup).1 (heq ▸ List.mem_map_of_mem hd)

/-- Plans that are tried one after the other: each of them adds candidates, and no two are the
same. -/
structure Tries (g : Dataflow Op) (order : List Candidate) (flags : DropFlags)
    (tried : List DropFlags) : Prop where
  adds : ∀ t ∈ tried, Adds g order flags t
  nodup : (tried.map (Plan.ofDropped g)).Nodup

theorem tries_nil (g : Dataflow Op) (order : List Candidate) (flags : DropFlags) :
    Tries g order flags [] :=
  ⟨by simp, List.nodup_nil⟩

theorem Tries.skip (h : Tries g rest flags tried) : Tries g (c :: rest) flags tried :=
  ⟨fun t ht => (h.adds t ht).skip, h.nodup⟩

/-- The candidate stays dropped in all that is tried later. -/
theorem Tries.of_drop (h : Tries g rest (flags.setIfInBounds c.step true) tried)
    (hleft : Remaining g (c :: rest) flags) :
    Tries g (c :: rest) flags (flags.setIfInBounds c.step true :: tried) := by
  constructor
  · exact List.forall_mem_cons.mpr ⟨hleft.adds, fun t ht => (h.adds t ht).of_drop hleft⟩
  · simpa using ⟨fun t ht => (h.adds t ht).ne hleft.drop, h.nodup⟩

/-- The candidate is retained in all that is tried later. -/
theorem Tries.of_undo (h : Tries g rest flags tried) (hleft : Remaining g (c :: rest) flags) :
    Tries g (c :: rest) flags (flags.setIfInBounds c.step true :: tried) := by
  constructor
  · exact List.forall_mem_cons.mpr ⟨hleft.adds, fun t ht => (h.adds t ht).skip⟩
  · simpa using ⟨fun t ht => (h.adds t ht).ne_of_skip hleft, h.nodup⟩

end Candidate

/-- What is tried are the steps that may be dropped, each once. -/
theorem candidates_remaining {order : List Candidate} (hsize : flags.size = g.size)
    (h : candidates g z flags = .ok order) : Candidate.Remaining g order flags := by
  obtain ⟨found, hfound, h⟩ := bind_eq_ok_iff.mp h
  obtain rfl := Except.ok.inj h
  have hpairs := forall₂_of_mapM_eq_ok hfound
  obtain ⟨retained, hretained⟩ : ∃ retained, retained = g.steps.toList.zipIdx.filter fun e =>
    decide (flags[e.2]? ≠ some true ∧ g.output? ≠ some e.2) := ⟨_, rfl⟩
  have hmap : retained.map (fun e => (e.2, e.1.cost)) = found.map fun c => (c.step, c.cost) := by
    rw [← List.forall₂_eq_eq_eq, List.forall₂_map_left_iff, List.forall₂_map_right_iff, hretained]
    refine hpairs.imp fun e c hc => ?_
    obtain ⟨bytes, -, hc⟩ := bind_eq_ok_iff.mp hc
    obtain rfl := Except.ok.inj hc
    rfl
  refine ⟨hsize, fun c hc => ?_, ?_⟩
  · have hmem := List.mem_map_of_mem (f := fun c => (c.step, c.cost)) (Sorting.mem_sort.mp hc)
    rw [← hmap, hretained] at hmem
    obtain ⟨⟨s, i⟩, he, heq⟩ := List.mem_map.mp hmem
    obtain ⟨rfl, hcost⟩ := Prod.mk.inj heq
    obtain ⟨hs, hkept⟩ := List.mem_filter.mp he
    rw [List.mk_mem_zipIdx_iff_getElem?, Array.getElem?_toList] at hs
    simp only [decide_eq_true_eq] at hkept
    refine ⟨(Array.getElem?_eq_some_iff.mp hs).1, hkept.1, hkept.2, ?_⟩
    simp [← hcost, hs]
  · refine ((Sorting.sort_perm _ _).map Candidate.step).nodup_iff.mpr ?_
    have hsteps : found.map Candidate.step = retained.map Prod.snd := by
      have hfst := congrArg (List.map Prod.fst) hmap
      rw [List.map_map, List.map_map] at hfst
      exact hfst.symm
    rw [hsteps, hretained]
    exact (List.nodup_zipIdx_map_snd _).sublist (List.filter_sublist.map Prod.snd)

/-- The plans evaluated so far, when a part of a search has ended. -/
def SearchStep.called : SearchStep (List Trial) → List DropFlags
  | .ok trials => trials.map Trial.dropped
  | .error stop => stop.done

namespace Search

variable {s : Search Op} {b : Budget} {c : Candidate} {order rest : List Candidate}
  {trials more : List Trial} {peak cost : Nat}

/-- What a plan is reported to cost is the cost of the steps that it drops. -/
def CountsDrops (s : Search Op) : Prop :=
  ∀ flags report, s.evaluate (.ofDropped s.flow flags) = .ok report →
    report.recomputeCost = s.flow.dropCost flags ∧ report.recomputeCost < Word.limit

theorem simulated_countsDrops (g : Dataflow Op) (z : Sizing) (b : Budget) (settings : Settings)
    (rule : GuessRule) : (simulated g z b settings rule).CountsDrops :=
  fun _ _ h => recomputeCost_eq_dropCost h

/-- The greedy phase has these candidates left, and this plan and its cost to go on from. -/
structure Refining (s : Search Op) (order : List Candidate) (flags : DropFlags) (cost : Nat) :
    Prop extends Candidate.Remaining s.flow order flags where
  cost_eq : cost = s.flow.dropCost flags

namespace Refining

theorem skip (h : s.Refining (c :: rest) flags cost) : s.Refining rest flags cost :=
  ⟨h.toRemaining.skip, h.cost_eq⟩

theorem dropCost_eq (h : s.Refining (c :: rest) flags cost) :
    s.flow.dropCost (flags.setIfInBounds c.step true) = cost + c.cost := by
  rw [(h.droppable c (List.mem_cons_self ..)).dropCost_eq h.size_eq, h.cost_eq]

theorem drop (h : s.Refining (c :: rest) flags cost) :
    s.Refining rest (flags.setIfInBounds c.step true) (cost + c.cost) :=
  ⟨h.toRemaining.drop, h.dropCost_eq.symm⟩

end Refining

/-- What the plan with one more dropped step costs is known before it is evaluated. -/
theorem Refining.report_eq {report : Report} (hcounts : s.CountsDrops)
    (h : s.Refining (c :: rest) flags cost)
    (heval : s.evaluate (.ofDropped s.flow (flags.setIfInBounds c.step true)) = .ok report) :
    report.recomputeCost = cost + c.cost ∧ Word.addClamped cost c.cost = cost + c.cost := by
  obtain ⟨hcost, hlt⟩ := hcounts _ _ heval
  rw [h.dropCost_eq] at hcost
  refine ⟨hcost, Nat.min_eq_left ?_⟩
  rw [← hcost]
  exact Nat.le_sub_one_of_lt hlt

theorem attempt_eq_ok_iff {result : Report × List Trial} : s.attempt trials flags = .ok result ↔
    ∃ report, s.evaluate (.ofDropped s.flow flags) = .ok report ∧
      (report, trials ++ [⟨flags, report⟩]) = result := by
  rw [attempt]
  cases s.evaluate (.ofDropped s.flow flags) <;> simp

/-- What becomes of a candidate: the trials have run out, it is passed over, or it is tried. -/
theorem refine_cons_eq_ok_iff : s.refine (c :: rest) flags peak cost trials = .ok more ↔
    (s.Exhausted trials ∧ trials = more) ∨
    (¬ s.Exhausted trials ∧ ¬ s.budget.AdmitsCost (Word.addClamped cost c.cost) ∧
      s.refine rest flags peak cost trials = .ok more) ∨
    (¬ s.Exhausted trials ∧ s.budget.AdmitsCost (Word.addClamped cost c.cost) ∧
      ∃ report,
        s.evaluate (.ofDropped s.flow (flags.setIfInBounds c.step true)) = .ok report ∧
        (if report.peak < peak ∧ s.budget.AdmitsCost report.recomputeCost then
          s.refine rest (flags.setIfInBounds c.step true) report.peak report.recomputeCost
            (trials ++ [⟨flags.setIfInBounds c.step true, report⟩])
        else s.refine rest flags peak cost
          (trials ++ [⟨flags.setIfInBounds c.step true, report⟩])) = .ok more) := by
  rw [refine]
  by_cases hroom : s.Exhausted trials
  · simp [hroom]
  · by_cases hadmits : s.budget.AdmitsCost (Word.addClamped cost c.cost)
    · simp only [hroom, hadmits, if_false, not_true_eq_false, bind_eq_ok_iff, attempt_eq_ok_iff]
      constructor
      · rintro ⟨-, ⟨report, heval, rfl⟩, h⟩
        exact Or.inr (Or.inr ⟨not_false, trivial, report, heval, h⟩)
      · rintro (⟨h, -⟩ | ⟨-, h, -⟩ | ⟨-, -, report, heval, h⟩)
        · exact h.elim
        · exact h.elim
        · exact ⟨_, ⟨report, heval, rfl⟩, h⟩
    · simp [hroom, hadmits]

theorem refine_affordable (hcounts : s.CountsDrops) (h : s.Refining order flags cost)
    (hrefine : s.refine order flags peak cost trials = .ok more) :
    ∀ t ∈ more, t ∈ trials ∨ s.budget.AdmitsCost t.report.recomputeCost := by
  induction order generalizing flags peak cost trials with
  | nil =>
    obtain rfl := Except.ok.inj hrefine
    exact fun t ht => Or.inl ht
  | cons c rest ih =>
    rcases refine_cons_eq_ok_iff.mp hrefine with
      ⟨-, rfl⟩ | ⟨-, -, hrest⟩ | ⟨-, hadmits, report, heval, hrest⟩
    · exact fun t ht => Or.inl ht
    · exact ih h.skip hrest
    · obtain ⟨hreport, hclamped⟩ := h.report_eq hcounts heval
      rw [hclamped, ← hreport] at hadmits
      have hdrop := h.drop
      rw [← hreport] at hdrop
      have hadded : ∀ t ∈ trials ++ [⟨flags.setIfInBounds c.step true, report⟩],
          t ∈ trials ∨ s.budget.AdmitsCost t.report.recomputeCost := by
        intro t ht
        rw [List.mem_append, List.mem_singleton] at ht
        rcases ht with ht | rfl
        · exact Or.inl ht
        · exact Or.inr hadmits
      intro t ht
      split at hrest
      · exact (ih hdrop hrest t ht).elim (hadded t) Or.inr
      · exact (ih h.skip hrest t ht).elim (hadded t) Or.inr

theorem prefix_of_refine (hrefine : s.refine order flags peak cost trials = .ok more) :
    trials <+: more := by
  induction order generalizing flags peak cost trials with
  | nil =>
    obtain rfl := Except.ok.inj hrefine
    exact List.prefix_rfl
  | cons c rest ih =>
    rcases refine_cons_eq_ok_iff.mp hrefine with
      ⟨-, rfl⟩ | ⟨-, -, hrest⟩ | ⟨-, -, report, -, hrest⟩
    · exact List.prefix_rfl
    · exact ih hrest
    · split at hrest
      · exact (List.prefix_append _ _).trans (ih hrest)
      · exact (List.prefix_append _ _).trans (ih hrest)

/-- A smaller budget that admits all that was evaluated leads to the same trials. -/
theorem refine_withBudget (hcounts : s.CountsDrops) (hle : b.maxCost ≤ s.budget.maxCost)
    (h : s.Refining order flags cost)
    (hrefine : s.refine order flags peak cost trials = .ok more)
    (hall : ∀ t ∈ more, b.AdmitsCost t.report.recomputeCost) :
    (s.withBudget b).refine order flags peak cost trials = .ok more := by
  induction order generalizing flags peak cost trials with
  | nil => exact hrefine
  | cons c rest ih =>
    rw [refine_cons_eq_ok_iff]
    rcases refine_cons_eq_ok_iff.mp hrefine with
      ⟨hroom, rfl⟩ | ⟨hroom, hadmits, hrest⟩ | ⟨hroom, hadmits, report, heval, hrest⟩
    · exact Or.inl ⟨hroom, rfl⟩
    · exact Or.inr (Or.inl ⟨hroom, fun hsmall => hadmits (hsmall.trans hle), ih h.skip hrest⟩)
    · obtain ⟨hreport, hclamped⟩ := h.report_eq hcounts heval
      have hdrop := h.drop
      rw [← hreport] at hdrop
      have hmem : (⟨flags.setIfInBounds c.step true, report⟩ : Trial) ∈ more := by
        have hnext : trials ++ [⟨flags.setIfInBounds c.step true, report⟩] <+: more := by
          split at hrest <;> exact prefix_of_refine hrest
        exact hnext.subset (by simp)
      have hsmall : b.AdmitsCost report.recomputeCost := hall _ hmem
      refine Or.inr (Or.inr ⟨hroom, ?_, report, heval, ?_⟩)
      · rw [hclamped, ← hreport]
        exact hsmall
      · split at hrest
        · rename_i hlower
          rw [if_pos ⟨hlower.1, hsmall⟩]
          exact ih hdrop hrest
        · rename_i hhigher
          rw [if_neg fun hlower => hhigher ⟨hlower.1, hsmall.trans hle⟩]
          exact ih h.skip hrest

theorem ofChecked_eq_ok_iff {α : Type} {x : Checked α} {a : α} :
    SearchStep.ofChecked trials x = .ok a ↔ x = .ok a := by
  cases x <;> simp [SearchStep.ofChecked, Except.mapError]

theorem greedy_eq_ok_iff : s.greedy trials = .ok more ↔
    (s.budget.bestOf trials = none ∧ trials = more) ∨
    ∃ best order, s.budget.bestOf trials = some best ∧
      candidates s.flow s.sizing best.dropped = .ok order ∧
      s.refine order best.dropped best.report.peak best.report.recomputeCost trials =
        .ok more := by
  rw [greedy]
  cases s.budget.bestOf trials with
  | none => simp
  | some best => simp [bind_eq_ok_iff, ofChecked_eq_ok_iff]

/-- How the phase goes through candidates from a plan of this cost, and which plans it tries. A
candidate is passed over if its cost is too high, or it is tried, and then stays dropped or is
retained again, until the trials run out or an evaluation fails. -/
inductive GoneThrough (s : Search Op) :
    List Candidate → DropFlags → Nat → List Trial → List DropFlags → Prop
  | finished (flags : DropFlags) (cost : Nat) (trials : List Trial) :
      GoneThrough s [] flags cost trials []
  | exhausted (order : List Candidate) (flags : DropFlags) (cost : Nat) {trials : List Trial}
      (h : s.Exhausted trials) : GoneThrough s order flags cost trials []
  | passed {c : Candidate} {rest : List Candidate} {flags : DropFlags} {cost : Nat}
      {trials : List Trial} {tried : List DropFlags}
      (hcost : ¬ s.budget.AdmitsCost (Word.addClamped cost c.cost))
      (h : GoneThrough s rest flags cost trials tried) :
      GoneThrough s (c :: rest) flags cost trials tried
  | failed {c : Candidate} (rest : List Candidate) {flags : DropFlags} (cost : Nat)
      (trials : List Trial) {failure : Failure PlanError}
      (heval : s.evaluate (.ofDropped s.flow (flags.setIfInBounds c.step true)) =
        .error failure) :
      GoneThrough s (c :: rest) flags cost trials [flags.setIfInBounds c.step true]
  | dropped {c : Candidate} {rest : List Candidate} {flags : DropFlags} {cost : Nat}
      {trials : List Trial} {tried : List DropFlags} {report : Report}
      (heval : s.evaluate (.ofDropped s.flow (flags.setIfInBounds c.step true)) = .ok report)
      (h : GoneThrough s rest (flags.setIfInBounds c.step true) report.recomputeCost
        (trials ++ [⟨flags.setIfInBounds c.step true, report⟩]) tried) :
      GoneThrough s (c :: rest) flags cost trials (flags.setIfInBounds c.step true :: tried)
  | retained {c : Candidate} {rest : List Candidate} {flags : DropFlags} {cost : Nat}
      {trials : List Trial} {tried : List DropFlags} {report : Report}
      (heval : s.evaluate (.ofDropped s.flow (flags.setIfInBounds c.step true)) = .ok report)
      (h : GoneThrough s rest flags cost
        (trials ++ [⟨flags.setIfInBounds c.step true, report⟩]) tried) :
      GoneThrough s (c :: rest) flags cost trials (flags.setIfInBounds c.step true :: tried)

theorem refine_goneThrough (s : Search Op) (order : List Candidate) (flags : DropFlags)
    (peak cost : Nat) (trials : List Trial) :
    ∃ tried, (s.refine order flags peak cost trials).called =
        trials.map Trial.dropped ++ tried ∧
      s.GoneThrough order flags cost trials tried := by
  induction order generalizing flags peak cost trials with
  | nil => exact ⟨[], (List.append_nil _).symm, .finished ..⟩
  | cons c rest ih =>
    rw [refine]
    split
    · exact ⟨[], (List.append_nil _).symm, .exhausted _ _ _ ‹_›⟩
    · split
      · obtain ⟨tried, hcalled, hthrough⟩ := ih flags peak cost trials
        exact ⟨tried, hcalled, .passed ‹_› hthrough⟩
      · cases hreport : s.evaluate (.ofDropped s.flow (flags.setIfInBounds c.step true)) with
        | error failure =>
          simp only [attempt, hreport]
          exact ⟨_, rfl, .failed rest cost trials hreport⟩
        | ok report =>
          have hmore : ∀ tried,
              (trials ++ [Trial.mk (flags.setIfInBounds c.step true) report]).map Trial.dropped ++
                  tried =
                trials.map Trial.dropped ++ flags.setIfInBounds c.step true :: tried := by simp
          simp only [attempt, hreport, bind, Except.bind]
          split
          · obtain ⟨tried, hcalled, hthrough⟩ := ih _ report.peak report.recomputeCost _
            exact ⟨_, hcalled.trans (hmore tried), .dropped hreport hthrough⟩
          · obtain ⟨tried, hcalled, hthrough⟩ := ih flags peak cost _
            exact ⟨_, hcalled.trans (hmore tried), .retained hreport hthrough⟩

theorem GoneThrough.tries {tried : List DropFlags}
    (h : s.GoneThrough order flags cost trials tried)
    (hleft : Candidate.Remaining s.flow order flags) :
    Candidate.Tries s.flow order flags tried := by
  induction h with
  | finished => exact Candidate.tries_nil ..
  | exhausted => exact Candidate.tries_nil ..
  | passed _ _ ih => exact (ih hleft.skip).skip
  | failed => exact (Candidate.tries_nil ..).of_drop hleft
  | dropped _ _ ih => exact (ih hleft.drop).of_drop hleft
  | retained _ _ ih => exact (ih hleft.skip).of_undo hleft

/-- The phase evaluates no plan twice, nor the one that it sets out from. -/
theorem greedy_tries {swept : List Trial} (hsize : ∀ t ∈ swept, t.dropped.size = s.flow.size) :
    ∃ tried, (s.greedy swept).called = swept.map Trial.dropped ++ tried ∧
      (tried.map (Plan.ofDropped s.flow)).Nodup ∧
      ∀ start ∈ (s.budget.bestOf swept).map Trial.dropped,
        Plan.ofDropped s.flow start ∉ tried.map (Plan.ofDropped s.flow) := by
  have hnone : swept.map Trial.dropped = swept.map Trial.dropped ++ [] := (List.append_nil _).symm
  rw [greedy]
  cases hbest : s.budget.bestOf swept with
  | none => exact ⟨[], hnone, List.nodup_nil, by simp⟩
  | some best =>
    cases horder : candidates s.flow s.sizing best.dropped with
    | error f =>
      simp only [horder]
      exact ⟨[], hnone, List.nodup_nil, by simp⟩
    | ok order =>
      have hleft := candidates_remaining (hsize best (Budget.mem_of_bestOf hbest).1) horder
      obtain ⟨tried, hcalled, hthrough⟩ := s.refine_goneThrough order best.dropped
        best.report.peak best.report.recomputeCost swept
      have htries := hthrough.tries hleft
      simp only [horder]
      refine ⟨tried, hcalled, htries.nodup, fun start hstart hmem => ?_⟩
      obtain rfl : best.dropped = start := by simpa using hstart
      obtain ⟨t, ht, heq⟩ := List.mem_map.mp hmem
      exact (htries.adds t ht).ne hleft heq

namespace Course

variable {report : Report} {swept : List Trial} {best : Trial}

theorem refining (h : s.Course report swept trials) (hcounts : s.CountsDrops) (hbest : best ∈ swept)
    (horder : candidates s.flow s.sizing best.dropped = .ok order) :
    s.Refining order best.dropped best.report.recomputeCost :=
  ⟨candidates_remaining (h.size_dropped best hbest) horder,
    (hcounts _ _ (h.swept_continues.record.evaluated best hbest)).1⟩

theorem mem_swept_or_admitsCost (h : s.Course report swept trials) (hcounts : s.CountsDrops) :
    ∀ t ∈ trials, t ∈ swept ∨ s.budget.AdmitsCost t.report.recomputeCost := by
  rcases greedy_eq_ok_iff.mp h.greedy_eq with ⟨-, rfl⟩ | ⟨best, order, hbest, horder, hrefine⟩
  · exact fun t ht => Or.inl ht
  · have hmem := (Budget.mem_of_bestOf hbest).1
    exact refine_affordable hcounts (h.refining hcounts hmem horder) hrefine

theorem withBudget (h : s.Course report swept trials) (hcounts : s.CountsDrops)
    (hle : b.maxCost ≤ s.budget.maxCost)
    (hall : ∀ t ∈ trials, b.AdmitsCost t.report.recomputeCost) :
    (s.withBudget b).Course report swept trials := by
  have hswept : ∀ t ∈ swept, b.AdmitsCost t.report.recomputeCost := fun t ht =>
    hall t (h.greedy_continues.extend.subset ht)
  have hchoice : b.bestOf swept = s.budget.bestOf swept := by
    refine Budget.bestOf_congr fun t ht => ⟨fun hsmall => Nat.le_trans hsmall hle, ?_⟩
    exact fun _ => hswept t ht
  refine ⟨h.baseline_eq, sweep_withBudget.trans h.sweep_eq, greedy_eq_ok_iff.mpr ?_⟩
  rcases greedy_eq_ok_iff.mp h.greedy_eq with ⟨hnone, rfl⟩ | ⟨best, order, hbest, horder, hrefine⟩
  · exact Or.inl ⟨hchoice.trans hnone, rfl⟩
  · have hmem := (Budget.mem_of_bestOf hbest).1
    exact Or.inr ⟨best, order, hchoice.trans hbest, horder,
      refine_withBudget hcounts hle (h.refining hcounts hmem horder) hrefine hall⟩

end Course
end Search
end AndOrFlow
