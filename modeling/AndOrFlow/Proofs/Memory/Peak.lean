import AndOrFlow.Proofs.Memory.Arrival
import AndOrFlow.Proofs.Memory.Safety
import AndOrFlow.Proofs.Memory.Volume

/-!
# The peak without a history

The bytes in memory at a step depend on the plan and on who reads whom, and not on what happened
before. Forward, a dropped output is there from its own step to the last step that reads it.
Backward, it is there if a step that is behind has asked for it, by a replay list of its own or of
an output that it reads. The two peaks are the largest of these loads.
-/
namespace AndOrFlow

variable {Op : Type} {g : Dataflow Op} {w : Workload} {p : Plan} {z : Sizing} {i j : Nat}

namespace Plan

/-- The outputs in memory when step `i` of the forward pass has run. -/
def forwardLive (g : Dataflow Op) (p : Plan) (i : Nat) : Finset Nat :=
  (Finset.range (i + 1)).filter fun j =>
    p.isDropped j = false ∨ j = i ∨ ∃ c ∈ g.readers j, i ≤ c

/-- The outputs in memory when step `i` of the backward pass has all that it needs. -/
def backwardLive (g : Dataflow Op) (p : Plan) (i : Nat) : Finset Nat :=
  (Finset.range (i + 1)).filter fun j =>
    p.isDropped j = false ∨ ∃ v ∈ Finset.range g.size,
      p.isDropped v = true ∧ j ∈ p.replayAt v ∧ (i ≤ v ∨ ∃ c ∈ g.readers v, i ≤ c)

end Plan

/-- The output bytes of every step come out as a word, and the bytes of all steps together are one,
and so are their costs together. Sizes are multiplied one after the other, so bytes come out where
every product on the way is a word. That asks for more than bytes that are a word only where a size
is zero: the product before it may be too large. -/
structure Sizing.Suits (z : Sizing) (g : Dataflow Op) : Prop where
  bytes : ∀ s ∈ g.steps, ∃ n, z.bytes s.shape = .ok n
  total_lt : (g.volumes z).toList.sum < Word.limit
  cost_lt : (g.steps.toList.map Step.cost).sum < Word.limit

/-- Where no size is zero, the bytes of every step come out if all of them together are a word. -/
theorem Sizing.exists_bytes_of_pos
    (hpos : ∀ s ∈ g.steps, ∀ d ∈ (s.shape.withDim 0 z.batch).dims, 0 < d)
    (htotal : (g.volumes z).toList.sum < Word.limit) :
    ∀ s ∈ g.steps, ∃ n, z.bytes s.shape = .ok n := by
  intro s hs
  have hmem : z.volume s.shape ∈ (g.volumes z).toList := by
    rw [Array.mem_toList_iff]
    exact Array.mem_map_of_mem hs
  have hle : z.volume s.shape ≤ (g.volumes z).toList.sum := List.le_sum_of_mem hmem
  exact (Sizing.exists_bytes_iff (hpos s hs)).mpr (Nat.lt_of_le_of_lt hle htotal)

/-- Then the totals are all that has to be a word. -/
theorem Sizing.suits_of_pos
    (hpos : ∀ s ∈ g.steps, ∀ d ∈ (s.shape.withDim 0 z.batch).dims, 0 < d)
    (htotal : (g.volumes z).toList.sum < Word.limit)
    (hcost : (g.steps.toList.map Step.cost).sum < Word.limit) : z.Suits g :=
  ⟨exists_bytes_of_pos hpos htotal, htotal, hcost⟩

def Dataflow.load (g : Dataflow Op) (z : Sizing) (live : Finset Nat) : Nat :=
  ∑ j ∈ live, (g.volumes z).getD j 0

theorem sum_toList_eq (xs : Array Nat) :
    xs.toList.sum = ∑ j ∈ Finset.range xs.size, xs.getD j 0 := by
  obtain ⟨xs⟩ := xs
  induction xs with
  | nil => rfl
  | cons x xs ih =>
    simp only [List.size_toArray, List.length_cons, List.sum_cons] at ih ⊢
    rw [Finset.sum_range_succ', ih, Nat.add_comm]
    simp

namespace Workload

/-- Every place that a step looks up is one of a step, in tables with one entry for each. -/
structure InRange (w : Workload) (p : Plan) : Prop where
  operands_size : w.operands.size = w.size
  lastReaders_size : w.lastReaders.size = w.size
  costs_size : w.costs.size = w.size
  needs_lt : ∀ i < w.size, ∀ v ∈ w.needs i, v < w.size
  replay_lt : ∀ i < w.size, ∀ v ∈ w.needs i, ∀ r ∈ p.replayAt v, r < w.size
  live_size : ∀ t m, w.Passes p t → w.memoryAt p t = .ok m → m.live.size = w.size

theorem inRange_of_ofFlow (hflow : Workload.ofFlow g z = .ok w) (hp : p.Rebuilds g) :
    w.InRange p := by
  have hw := describes_of_ofFlow hflow
  have hsize := hw.size_eq
  obtain ⟨bytes, -, hrest⟩ := bind_eq_ok_iff.mp hflow
  obtain rfl := Except.ok.inj hrest
  refine ⟨?_, ?_, ?_, ?_, ?_, ?_⟩
  · rw [hsize]
    simp [Dataflow.operandLists, Dataflow.size]
  · rw [hsize]
    simp [Dataflow.consumers, Dataflow.operandLists, Dataflow.size]
  · rw [hsize]
    simp [Dataflow.size]
  · intro i hi v hv
    exact Nat.lt_of_le_of_lt (hw.le_of_mem_needs hv) hi
  · intro i _ v _ r hr
    exact hsize ▸ hp.lt_size (hp.isDropped hr)
  · intro t m ht hm
    exact (tallies_memoryAt hw hp ht hm).stands.size_eq

section

variable (hw : w.Describes g)
include hw

theorem Describes.readFrom_iff : w.ReadFrom i j ↔ ∃ c ∈ g.readers j, i ≤ c := by
  simp only [Dataflow.mem_readers, ← hw.operandsOf_eq]
  constructor
  · rintro ⟨c, hc, hread⟩
    exact ⟨c, hread, (Finset.mem_Ico.mp hc).1⟩
  · rintro ⟨c, hread, hle⟩
    exact ⟨c, Finset.mem_Ico.mpr ⟨hle, (hw.lt hread).2⟩, hread⟩

theorem heldAt_ran_eq (h : i < w.size) : w.heldAt p (.ran i 0) = p.forwardLive g i := by
  ext j
  simp only [Plan.forwardLive, heldAt, Finset.mem_filter, ← hw.readFrom_iff, readFrom_succ h,
    List.take_zero, List.not_mem_nil, not_false_eq_true, and_true]
  tauto

theorem Describes.exists_needs_iff {v : Nat} :
    (∃ c, i ≤ c ∧ c < w.size ∧ v ∈ w.needs c) ↔
      v < w.size ∧ (i ≤ v ∨ ∃ c ∈ g.readers v, i ≤ c) := by
  simp only [Dataflow.mem_readers, ← hw.operandsOf_eq, needs, List.mem_cons]
  constructor
  · rintro ⟨c, hic, hc, rfl | hread⟩
    · exact ⟨hc, Or.inl hic⟩
    · exact ⟨Nat.lt_trans (hw.lt hread).1 hc, Or.inr ⟨c, hread, hic⟩⟩
  · rintro ⟨hv, hiv | ⟨c, hread, hic⟩⟩
    · exact ⟨v, hiv, hv, Or.inl rfl⟩
    · exact ⟨c, hic, (hw.lt hread).2, Or.inr hread⟩

theorem heldAt_supplied_eq (hp : p.Rebuilds g) (h : i < w.size) :
    w.heldAt p (.supplied i (w.needs i).length) = p.backwardLive g i := by
  have hmem : ∀ j, j ∈ w.rebuiltFrom p i ↔ ∃ v ∈ Finset.range g.size,
      p.isDropped v = true ∧ j ∈ p.replayAt v ∧ (i ≤ v ∨ ∃ c ∈ g.readers v, i ≤ c) := by
    intro j
    rw [mem_rebuiltFrom]
    constructor
    · rintro ⟨c, hic, hc, v, hv, hj⟩
      obtain ⟨hlt, hlater⟩ := hw.exists_needs_iff.mp ⟨c, hic, hc, hv⟩
      rw [hw.size_eq] at hlt
      exact ⟨v, Finset.mem_range.mpr hlt, ((hp.mem_replayAt v j).mp hj).1, hj, hlater⟩
    · rintro ⟨v, hv, -, hj, hlater⟩
      rw [Finset.mem_range, ← hw.size_eq] at hv
      obtain ⟨c, hic, hc, hneeds⟩ := hw.exists_needs_iff.mpr ⟨hv, hlater⟩
      exact ⟨c, hic, hc, v, hneeds, hj⟩
  ext j
  rw [heldAt, rebuiltAt, ← rebuiltFrom_eq h, mem_heldOf, hmem, Plan.backwardLive,
    Finset.mem_filter, Finset.mem_range]

end
end Workload

/-- The largest load of the forward pass; none on an empty graph. -/
def Plan.forwardPeak (g : Dataflow Op) (z : Sizing) (p : Plan) : Nat :=
  (Finset.range g.size).sup fun i => g.load z (p.forwardLive g i)

def Plan.backwardPeak (g : Dataflow Op) (z : Sizing) (p : Plan) : Nat :=
  (Finset.range g.size).sup fun i => g.load z (p.backwardLive g i)

theorem Sizing.Suits.fits (h : z.Suits g) (hw : w.Describes g) (hbytes : w.bytes = g.volumes z) :
    w.Fits := by
  constructor
  · have htotal := h.total_lt
    rw [sum_toList_eq, ← hbytes] at htotal
    exact htotal
  · have hcost := h.cost_lt
    rw [← Array.toList_map, sum_toList_eq, Array.size_map] at hcost
    rw [hw.size_eq, hw.costs_eq]
    exact hcost

theorem Workload.peakAt_before_eq (hw : w.Describes g) (hbytes : w.bytes = g.volumes z) :
    w.peakAt p (.before w.size) = p.forwardPeak g z := by
  rw [peakAt, hw.size_eq]
  refine Finset.sup_congr rfl fun i hi => ?_
  rw [Finset.mem_range, ← hw.size_eq] at hi
  rw [load, hbytes, heldAt_ran_eq hw hi]
  rfl

theorem Workload.peakAt_after_eq (hw : w.Describes g) (hp : p.Rebuilds g)
    (hbytes : w.bytes = g.volumes z) : w.peakAt p (.after 0) = p.backwardPeak g z := by
  rw [peakAt, hw.size_eq, ← Finset.range_eq_Ico]
  refine Finset.sup_congr rfl fun i hi => ?_
  rw [Finset.mem_range, ← hw.size_eq] at hi
  rw [load, hbytes, heldAt_supplied_eq hw hp hi]
  rfl

theorem Sizing.Suits.exists_report (h : z.Suits g) (flags : DropFlags) :
    ∃ report, simulate g (.ofDropped g flags) z = .ok report := by
  obtain ⟨w, hflow, hbytes⟩ := Workload.exists_ofFlow h.bytes
  have hw := Workload.describes_of_ofFlow hflow
  have hrun := Workload.run_of_fits (h.fits hw hbytes) hw (Plan.rebuilds_ofDropped g flags)
  rw [simulate_eq_run hflow (Plan.size_ofDropped g flags), hrun]
  exact ⟨_, rfl⟩

/-- A simulation whose sizes and costs are words ends without a fault, and its peaks are those of
the outputs live at each step. -/
theorem simulate_eq_peaks (g : Dataflow Op) (flags : DropFlags) (z : Sizing) (h : z.Suits g) :
    (∃ w, Workload.ofFlow g z = .ok w ∧ w.InRange (.ofDropped g flags)) ∧
      simulate g (.ofDropped g flags) z = .ok
        { forwardPeak := (Plan.ofDropped g flags).forwardPeak g z
          backwardPeak := (Plan.ofDropped g flags).backwardPeak g z
          peak := max ((Plan.ofDropped g flags).forwardPeak g z)
            ((Plan.ofDropped g flags).backwardPeak g z)
          recomputeCost := ∑ j ∈ (Finset.range g.size).filter
              (fun j => (Plan.ofDropped g flags).isDropped j = true),
            (g.steps.map Step.cost).getD j 0 } := by
  obtain ⟨w, hflow, hbytes⟩ := Workload.exists_ofFlow h.bytes
  have hw := Workload.describes_of_ofFlow hflow
  have hp := Plan.rebuilds_ofDropped g flags
  refine ⟨⟨w, hflow, Workload.inRange_of_ofFlow hflow hp⟩, ?_⟩
  have hrun := Workload.run_of_fits (h.fits hw hbytes) hw hp
  rw [Workload.peakAt_before_eq hw hbytes, Workload.peakAt_after_eq hw hp hbytes,
    hw.costs_eq] at hrun
  rw [simulate_eq_run hflow (Plan.size_ofDropped g flags), hrun]
  rfl

theorem simulate_eq_peaks_twoPaths :
    (⟨1, .f32⟩ : Sizing).Suits twoPaths ∧
      simulate twoPaths (.ofDropped twoPaths #[true, false, true]) ⟨1, .f32⟩ =
        .ok ⟨48, 64, 64, 10⟩ := by
  have h : (⟨1, .f32⟩ : Sizing).Suits twoPaths :=
    Sizing.suits_of_pos (by decide +kernel) (by decide +kernel) (by decide +kernel)
  refine ⟨h, (simulate_eq_peaks twoPaths #[true, false, true] ⟨1, .f32⟩ h).2.trans ?_⟩
  decide +kernel

end AndOrFlow
