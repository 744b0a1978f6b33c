import AndOrFlow.Proofs.Memory.Tally

/-!
# No output is used after it is freed

Whatever a step of either pass reads, and whatever a replayed step reads, is in memory at that
moment. Replay lists run in ascending order and are closed under dropped operands, so a replayed
step finds its operands retained or replayed just before.
-/
namespace AndOrFlow

namespace Workload

variable {Op : Type} {g : Dataflow Op} {w : Workload} {p : Plan} {m : Memory}
  {flags : DropFlags} {z : Sizing} {i j k q r v : Nat}

/-- A simulation in which nothing is read that is not in memory. -/
structure SafeRun (g : Dataflow Op) (w : Workload) (p : Plan) : Prop where
  /-- When a step is about to run, all that it reads is in memory. -/
  forward_reads : ∀ i m, i < g.size → w.memoryAt p (.before i) = .ok m →
    ∀ j ∈ g.operands i, m.Holds j
  /-- It still is when the step has run and the memory is observed. -/
  forward_observed : ∀ i m, i < g.size → w.memoryAt p (.ran i 0) = .ok m →
    m.Holds i ∧ ∀ j ∈ g.operands i, m.Holds j
  /-- When a backward step is observed, its output and all that it reads are in memory. -/
  backward_observed : ∀ i m, i < g.size →
    w.memoryAt p (.supplied i (w.needs i).length) = .ok m →
      m.Holds i ∧ ∀ j ∈ g.operands i, m.Holds j
  /-- When it is the turn of a step of a replay list, all that the step reads is in memory. -/
  replay_reads : ∀ i k v q r m, i < g.size → (w.needs i)[k]? = some v →
    (p.replayAt v)[q]? = some r → w.memoryAt p (.replayed i k q) = .ok m →
    ∀ j ∈ g.operands r, m.Holds j
  /-- A retained output is in memory at every moment from its forward to its backward step. -/
  retained : ∀ t m r, w.Passes p t → w.memoryAt p t = .ok m → p.isDropped r = false →
    r < t.reach → m.Holds r
  /-- In the end nothing is in memory. -/
  released : ∀ m, w.memoryAt p (.after 0) = .ok m → ∀ j, ¬ m.Holds j

theorem mem_asked_length (hv : v ∈ w.needs i) (hj : j ∈ p.replayAt v) :
    j ∈ w.asked p i (w.needs i).length :=
  mem_asked.mpr ⟨v, by rwa [List.take_length], hj⟩

theorem mem_heldAt_of_retained {t : Moment} (hkept : p.isDropped r = false) (hr : r < t.reach) :
    r ∈ w.heldAt p t := by
  cases t with
  | before i => exact Finset.mem_filter.mpr ⟨Finset.mem_range.mpr hr, Or.inl hkept⟩
  | ran i k => exact Finset.mem_filter.mpr ⟨Finset.mem_range.mpr hr, Or.inr (Or.inl hkept)⟩
  | after i => exact mem_heldOf.mpr ⟨hr, Or.inl hkept⟩
  | supplied i k => exact mem_heldOf.mpr ⟨hr, Or.inl hkept⟩
  | replayed i k q => exact mem_heldOf.mpr ⟨hr, Or.inl hkept⟩

section

variable (hw : w.Describes g) (hp : p.Rebuilds g)
include hw

theorem mem_heldAt_before (hj : j ∈ g.operands i) (hi : i < g.size) :
    j ∈ w.heldAt p (.before i) := by
  rw [← hw.operandsOf_eq] at hj
  have hread : w.ReadFrom i j := (readFrom_succ (hw.size_eq ▸ hi)).mpr (Or.inl hj)
  exact Finset.mem_filter.mpr ⟨Finset.mem_range.mpr (hw.lt hj).1, Or.inr hread⟩

include hp

theorem mem_heldAt_supplied (hv : v ∈ w.needs i) :
    v ∈ w.heldAt p (.supplied i (w.needs i).length) := by
  refine mem_heldOf.mpr ⟨Nat.lt_succ_of_le (hw.le_of_mem_needs hv), ?_⟩
  cases hdrop : p.isDropped v with
  | false => exact Or.inl rfl
  | true => exact Or.inr (Finset.mem_union_right _ (mem_asked_length hv (hp.self_mem hdrop)))

theorem mem_heldAt_replayed (hv : (w.needs i)[k]? = some v) (hr : (p.replayAt v)[q]? = some r)
    (hj : j ∈ g.operands r) : j ∈ w.heldAt p (.replayed i k q) := by
  have hlt := g.operands_lt hj
  have hmem := List.mem_of_getElem? hr
  have hvi := hw.le_of_mem_needs (List.mem_of_getElem? hv)
  have hrv := hp.le hmem
  refine mem_heldOf.mpr ⟨by omega, ?_⟩
  cases hdrop : p.isDropped j with
  | false => exact Or.inl rfl
  | true =>
    refine Or.inr (Finset.mem_union_right _ (List.mem_toFinset.mpr ?_))
    rw [hv, Option.elim_some]
    obtain ⟨a, ha⟩ := List.getElem?_of_mem (hp.operand_mem hmem hj hdrop)
    -- The operand is smaller than the step, and the list ascends.
    have hbefore : a < q := by
      obtain ⟨hasize, rfl⟩ := List.getElem?_eq_some_iff.mp ha
      obtain ⟨hqsize, rfl⟩ := List.getElem?_eq_some_iff.mp hr
      refine Nat.lt_of_not_le fun hqa => ?_
      rcases Nat.eq_or_lt_of_le hqa with rfl | hqa
      · exact Nat.lt_irrefl _ hlt
      · have hasc := List.pairwise_iff_getElem.mp (hp.ascending v) q a hqsize hasize hqa
        omega
    exact List.mem_iff_getElem?.mpr ⟨a, by rw [List.getElem?_take_of_lt hbefore, ha]⟩

theorem safeRun : w.SafeRun g p := by
  have hholds : ∀ t m j, w.Passes p t → w.memoryAt p t = .ok m →
      (m.Holds j ↔ j ∈ w.heldAt p t) :=
    fun t m j ht hm => (tallies_memoryAt hw hp ht hm).stands.holds_iff j
  have hsize := hw.size_eq
  refine ⟨?_, ?_, ?_, ?_, ?_, ?_⟩
  · intro i m hi hm j hj
    have hpass : w.Passes p (.before i) := Nat.le_of_lt (hsize ▸ hi)
    exact (hholds _ m j hpass hm).mpr (mem_heldAt_before hw hj hi)
  · intro i m hi hm
    have hlt : i < w.size := by omega
    have hpass : w.Passes p (.ran i 0) := ⟨hlt, Nat.zero_le _⟩
    simp only [hholds _ m _ hpass hm, heldAt_ran_zero hlt]
    refine ⟨Finset.mem_insert_self _ _, fun j hj => ?_⟩
    exact Finset.mem_insert_of_mem (mem_heldAt_before hw hj hi)
  · intro i m hi hm
    have hpass : w.Passes p (.supplied i (w.needs i).length) := ⟨by omega, Nat.le_refl _⟩
    simp only [hholds _ m _ hpass hm]
    refine ⟨mem_heldAt_supplied hw hp (List.mem_cons_self ..), fun j hj => ?_⟩
    rw [← hw.operandsOf_eq] at hj
    exact mem_heldAt_supplied hw hp (List.mem_cons_of_mem _ hj)
  · intro i k v q r m hi hv hr hm j hj
    have hq : q ≤ (p.replayAt v).length := Nat.le_of_lt (List.getElem?_eq_some_iff.mp hr).1
    have hpass : w.Passes p (.replayed i k q) := ⟨by omega, v, hv, hq⟩
    exact (hholds _ m j hpass hm).mpr (mem_heldAt_replayed hw hp hv hr hj)
  · intro t m r ht hm hkept hr
    exact (hholds t m r ht hm).mpr (mem_heldAt_of_retained hkept hr)
  · intro m hm j hj
    have hmem := (hholds _ m j (Nat.zero_le _) hm).mp hj
    exact absurd (mem_heldOf.mp hmem).1 (Nat.not_lt_zero j)

end

end Workload

variable {Op : Type} {g : Dataflow Op} {w : Workload} {z : Sizing}

theorem simulate_eq_run (hw : Workload.ofFlow g z = .ok w) {p : Plan} (hsize : p.size = g.size) :
    simulate g p z = (w.run p).mapError .fault := by
  rw [simulate, Failure.demand, if_pos hsize, hw]
  rfl

/-- The plans made of drop flags are simulated without a read of a freed output, and the moments
spoken of are those that the simulation goes through. -/
theorem simulate_safe (g : Dataflow Op) (flags : DropFlags) (z : Sizing) (w : Workload)
    (hw : Workload.ofFlow g z = .ok w) :
    w.SafeRun g (.ofDropped g flags) ∧ w.StepByStep (.ofDropped g flags) ∧
      simulate g (.ofDropped g flags) z = Except.mapError .fault (do
        let m ← w.memoryAt (.ofDropped g flags) (.before g.size)
        let n ← w.memoryAt (.ofDropped g flags) (.after 0)
        return ⟨m.peak, n.peak, max m.peak n.peak, n.cost⟩) := by
  have hdescribes := Workload.describes_of_ofFlow hw
  refine ⟨Workload.safeRun hdescribes (Plan.rebuilds_ofDropped g flags), w.stepByStep _, ?_⟩
  rw [simulate_eq_run hw (Plan.size_ofDropped g flags), Workload.run_eq_memoryAt,
    hdescribes.size_eq]

def sampleStep (reads : List Nat) : Step Unit where
  source := 0
  kind := .and
  span := ⟨0, 1⟩
  inputs := reads.map .step
  op := ()
  shape := ⟨[1, 4]⟩
  params := 0
  cost := 5

/-- Two steps that read the same one, a step that reads both, and one more. -/
def twoPaths : Dataflow Unit where
  steps := #[sampleStep [], sampleStep [0], sampleStep [0], sampleStep [1, 2], sampleStep [3]]
  inputShape := ⟨[1, 4]⟩
  reads_lt := by
    intro i s hs j hj
    have hearly : earlyRead? 0 [sampleStep [], sampleStep [0], sampleStep [0], sampleStep [1, 2],
      sampleStep [3]] = none := by decide
    have hlt := lt_of_earlyRead?_eq_none hearly i s (by simpa using hs) j hj
    omega

/-- The workload of `twoPaths` with one number of four bytes for each. -/
def twoPathsLoad : Workload where
  operands := #[[], [0], [0], [1, 2], [3]]
  lastReaders := #[some 2, some 3, some 3, some 4, none]
  costs := #[5, 5, 5, 5, 5]
  bytes := #[16, 16, 16, 16, 16]

theorem simulate_safe_twoPaths :
    Workload.ofFlow twoPaths ⟨1, .f32⟩ = .ok twoPathsLoad ∧
      twoPathsLoad.SafeRun twoPaths (.ofDropped twoPaths #[true, true, true]) ∧
      twoPathsLoad.StepByStep (.ofDropped twoPaths #[true, true, true]) ∧
      simulate twoPaths (.ofDropped twoPaths #[true, true, true]) ⟨1, .f32⟩ =
        .ok ⟨48, 64, 64, 15⟩ := by
  have hw : Workload.ofFlow twoPaths ⟨1, .f32⟩ = .ok twoPathsLoad := by cbv
  obtain ⟨hsafe, hsteps, -⟩ := simulate_safe twoPaths #[true, true, true] ⟨1, .f32⟩ twoPathsLoad hw
  exact ⟨hw, hsafe, hsteps, by cbv⟩

end AndOrFlow
