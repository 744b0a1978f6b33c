import Mathlib.Algebra.Order.BigOperators.Group.Finset
import Mathlib.Order.Lattice.Nat
import AndOrFlow.Proofs.Memory.Cost

/-!
# Simulations that fit in words

What is in memory is a set of outputs, and what has been paid for is a set of steps. So no addition
overflows when the bytes of all outputs together are a word and the costs of all steps together are
one: the simulation arrives at every moment, and its peak there is the largest of the totals that it
has observed.
-/
namespace AndOrFlow

namespace Memory

variable {bytes : Array Nat} {m : Memory} {live : Finset Nat} {i : Nat}

theorem Stands.exists_alloc (h : m.Stands bytes live)
    (hsum : ∑ j ∈ insert i live, bytes.getD j 0 < Word.limit) :
    ∃ n, m.alloc bytes i = .ok n ∧ n.peak = m.peak := by
  by_cases hheld : m.Holds i
  · exact ⟨m, if_pos hheld, rfl⟩
  · have hmem : i ∉ live := fun hmem => hheld ((h.holds_iff i).mpr hmem)
    rw [Finset.sum_insert hmem, ← h.total_eq, Nat.add_comm] at hsum
    have hadd : Word.add m.total (bytes.getD i 0) = .ok (m.total + bytes.getD i 0) :=
      Word.add_eq_ok_iff.mpr ⟨rfl, hsum⟩
    refine ⟨{ m with
      live := m.live.setIfInBounds i true
      total := m.total + bytes.getD i 0 }, ?_, rfl⟩
    rw [Memory.alloc, if_neg hheld, hadd]
    rfl

/-- An output in memory has its bytes in the total, so freeing it never fails. -/
theorem Stands.exists_free (h : m.Stands bytes live) (i : Nat) :
    ∃ n, m.free bytes i = .ok n ∧ n.peak = m.peak := by
  by_cases hheld : m.Holds i
  · have hle : bytes.getD i 0 ≤ m.total := by
      rw [h.total_eq]
      exact Finset.single_le_sum (f := fun j => bytes.getD j 0) (fun _ _ => Nat.zero_le _)
        ((h.holds_iff i).mp hheld)
    have hsub : Word.sub m.total (bytes.getD i 0) = .ok (m.total - bytes.getD i 0) :=
      Word.sub_eq_ok_iff.mpr ⟨hle, rfl⟩
    refine ⟨{ m with
      live := m.live.setIfInBounds i false
      total := m.total - bytes.getD i 0 }, ?_, rfl⟩
    rw [Memory.free, if_pos hheld, hsub]
    rfl
  · exact ⟨m, if_neg hheld, rfl⟩

theorem Stands.exists_free_if {c : Prop} [Decidable c] (h : m.Stands bytes live) (i : Nat) :
    ∃ n, (if c then m.free bytes i else .ok m) = .ok n ∧ n.peak = m.peak := by
  split
  · exact h.exists_free i
  · exact ⟨m, rfl, rfl⟩

end Memory

namespace Workload

variable {Op : Type} {g : Dataflow Op} {w : Workload} {p : Plan} {m : Memory} {t : Moment}
  {live rebuilt : Finset Nat} {i k r v left : Nat}

/-- The bytes of all outputs together are a word, and so is the cost of all steps. -/
structure Fits (w : Workload) : Prop where
  bytes_lt : ∑ j ∈ Finset.range w.size, w.bytes.getD j 0 < Word.limit
  costs_lt : ∑ j ∈ Finset.range w.size, w.costs.getD j 0 < Word.limit

def load (w : Workload) (live : Finset Nat) : Nat := ∑ j ∈ live, w.bytes.getD j 0

/-- The largest total observed by a moment. The forward pass observes when a step has run, the
backward pass when all that a step needs is supplied. -/
def peakAt (w : Workload) (p : Plan) : Moment → Nat
  | .before i => (Finset.range i).sup fun c => w.load (w.heldAt p (.ran c 0))
  | .ran i _ => (Finset.range (i + 1)).sup fun c => w.load (w.heldAt p (.ran c 0))
  | .after i =>
    (Finset.Ico i w.size).sup fun c => w.load (w.heldAt p (.supplied c (w.needs c).length))
  | .supplied i _ | .replayed i _ _ =>
    (Finset.Ico (i + 1) w.size).sup fun c => w.load (w.heldAt p (.supplied c (w.needs c).length))

/-- The simulation gets to the moment, with the expected peak. -/
def Arrives (w : Workload) (p : Plan) (t : Moment) : Prop :=
  ∃ m, w.memoryAt p t = .ok m ∧ m.peak = w.peakAt p t

theorem Fits.load_lt (h : w.Fits) (hlive : live ⊆ Finset.range w.size) :
    ∑ j ∈ live, w.bytes.getD j 0 < Word.limit :=
  Nat.lt_of_le_of_lt (Finset.sum_le_sum_of_subset hlive) h.bytes_lt

theorem Fits.paid_lt (h : w.Fits) (hrebuilt : rebuilt ⊆ Finset.range w.size) :
    ∑ j ∈ rebuilt, w.costs.getD j 0 < Word.limit :=
  Nat.lt_of_le_of_lt (Finset.sum_le_sum_of_subset hrebuilt) h.costs_lt

theorem heldOf_subset (hleft : left ≤ w.size) : heldOf p left rebuilt ⊆ Finset.range w.size :=
  (Finset.filter_subset _ _).trans (Finset.range_subset_range.mpr hleft)

theorem peakAt_ran : w.peakAt p (.ran i k) =
    max (w.peakAt p (.before i)) (w.load (w.heldAt p (.ran i 0))) := by
  rw [peakAt, peakAt, Finset.range_add_one, Finset.sup_insert, max_comm]

theorem peakAt_after (h : i < w.size) : w.peakAt p (.after i) =
    max (w.peakAt p (.after (i + 1))) (w.load (w.heldAt p (.supplied i (w.needs i).length))) := by
  rw [peakAt, peakAt, ← Finset.insert_Ico_add_one_left_eq_Ico h, Finset.sup_insert, max_comm]

section Forward

variable (hw : w.Describes g) (hfits : w.Fits)
include hw hfits

theorem arrives_ran (h : i < w.size) (hk : k ≤ (w.operandsOf i).length)
    (hbefore : w.Arrives p (.before i)) : w.Arrives p (.ran i k) := by
  induction k with
  | zero =>
    obtain ⟨m, hm, hpeak⟩ := hbefore
    have htally := tallies_before hw (Nat.le_of_lt h) hm
    have hheld := heldAt_ran_zero (w := w) (p := p) h
    have hsub : w.heldAt p (.ran i 0) ⊆ Finset.range w.size :=
      (Finset.filter_subset _ _).trans (Finset.range_subset_range.mpr h)
    have hlt := hfits.load_lt hsub
    rw [hheld] at hlt
    obtain ⟨n, hn, hsame⟩ := htally.stands.exists_alloc hlt
    have htotal := (htally.stands.alloc h hn).1.total_eq
    refine ⟨n.observe, ?_, ?_⟩
    · rw [memoryAt_ran_zero]
      exact bind_eq_ok_iff.mpr ⟨m, hm, bind_eq_ok_iff.mpr ⟨n, hn, rfl⟩⟩
    · rw [peakAt_ran, ← hpeak, ← hsame, hheld, load, ← htotal]
      rfl
  | succ k ih =>
    obtain ⟨m, hm, hpeak⟩ := ih (Nat.le_of_succ_le hk)
    have htally := tallies_ran hw h (Nat.le_of_succ_le hk)
      (fun m => tallies_before hw (Nat.le_of_lt h)) hm
    have hj := List.getElem?_eq_getElem hk
    obtain ⟨n, hn, hsame⟩ := htally.stands.exists_free_if
      (c := p.isDropped (w.operandsOf i)[k] = true ∧ w.lastReaderOf (w.operandsOf i)[k] = some i)
      (w.operandsOf i)[k]
    refine ⟨n, ?_, hsame.trans hpeak⟩
    rw [memoryAt_ran_succ hj]
    exact bind_eq_ok_iff.mpr ⟨m, hm, hn⟩

theorem arrives_before (h : i ≤ w.size) : w.Arrives p (.before i) := by
  induction i with
  | zero => exact ⟨_, memoryAt_before_zero, rfl⟩
  | succ i ih =>
    obtain ⟨m, hm, hpeak⟩ :=
      arrives_ran hw hfits h (Nat.le_refl _) (ih (Nat.le_of_succ_le h))
    have htally := tallies_ran hw h (Nat.le_refl _)
      (fun m => tallies_before hw (Nat.le_of_succ_le h)) hm
    obtain ⟨n, hn, hsame⟩ := htally.stands.exists_free_if
      (c := p.isDropped i = true ∧ w.lastReaderOf i = none) i
    refine ⟨n, ?_, hsame.trans hpeak⟩
    rw [memoryAt_before_succ]
    exact bind_eq_ok_iff.mpr ⟨m, hm, hn⟩

end Forward

section Backward

variable (hfits : w.Fits)
include hfits

theorem exists_rerun (hleft : left ≤ w.size) (hr : r < left)
    (hrebuilt : rebuilt ⊆ Finset.range w.size)
    (htally : w.Tallies (heldOf p left rebuilt) rebuilt m) :
    ∃ n, w.rerun m r = .ok n ∧ n.peak = m.peak := by
  by_cases hheld : m.Holds r
  · exact ⟨m, if_pos hheld, rfl⟩
  · have hin : r ∈ Finset.range w.size := Finset.mem_range.mpr (Nat.lt_of_lt_of_le hr hleft)
    have hfresh : r ∉ rebuilt := fun hmem =>
      hheld ((htally.stands.holds_iff r).mpr (mem_heldOf.mpr ⟨hr, Or.inr hmem⟩))
    obtain ⟨n, hn, hpeak⟩ := htally.stands.exists_alloc
      (hfits.load_lt (Finset.insert_subset hin (heldOf_subset hleft)))
    have hcost := (htally.stands.alloc (Nat.lt_of_lt_of_le hr hleft) hn).2
    have hpaid := hfits.paid_lt (Finset.insert_subset hin hrebuilt)
    rw [Finset.sum_insert hfresh, ← htally.cost_eq, ← hcost, Nat.add_comm] at hpaid
    have hadd : Word.add n.cost (w.costs.getD r 0) = .ok (n.cost + w.costs.getD r 0) :=
      Word.add_eq_ok_iff.mpr ⟨rfl, hpaid⟩
    refine ⟨{ n with cost := n.cost + w.costs.getD r 0 }, ?_, hpeak⟩
    rw [rerun, if_neg hheld]
    exact bind_eq_ok_iff.mpr ⟨n, hn, bind_eq_ok_iff.mpr ⟨_, hadd, rfl⟩⟩

theorem exists_reruns {steps : List Nat} (hleft : left ≤ w.size)
    (hsteps : ∀ r ∈ steps, r < left ∧ p.isDropped r = true)
    (hrebuilt : rebuilt ⊆ Finset.range w.size)
    (htally : w.Tallies (heldOf p left rebuilt) rebuilt m) :
    ∃ n, steps.foldlM w.rerun m = .ok n ∧ n.peak = m.peak := by
  induction steps generalizing m rebuilt with
  | nil => exact ⟨m, rfl, rfl⟩
  | cons r rest ih =>
    obtain ⟨hr, hdrop⟩ := hsteps r (by simp)
    obtain ⟨m₁, hm₁, hpeak₁⟩ := exists_rerun hfits hleft hr hrebuilt htally
    have hin : r ∈ Finset.range w.size := Finset.mem_range.mpr (Nat.lt_of_lt_of_le hr hleft)
    obtain ⟨n, hn, hpeak⟩ := ih (fun r hr => hsteps r (by simp [hr]))
      (Finset.insert_subset hin hrebuilt) (tallies_rerun hleft hr hdrop htally hm₁)
    refine ⟨n, ?_, hpeak.trans hpeak₁⟩
    rw [List.foldlM_cons]
    exact bind_eq_ok_iff.mpr ⟨m₁, hm₁, hn⟩

variable (hw : w.Describes g) (hp : p.Rebuilds g)
include hp

theorem exists_supply (hleft : left ≤ w.size) (hv : v < left)
    (hrebuilt : rebuilt ⊆ Finset.range w.size)
    (htally : w.Tallies (heldOf p left rebuilt) rebuilt m) :
    ∃ n, w.supply p m v = .ok n ∧ n.peak = m.peak := by
  by_cases hheld : m.Holds v
  · exact ⟨m, if_pos hheld, rfl⟩
  · have hsteps : ∀ r ∈ p.replayAt v, r < left ∧ p.isDropped r = true := fun r hr =>
      ⟨Nat.lt_of_le_of_lt (hp.le hr) hv, hp.isDropped hr⟩
    obtain ⟨n, hn, hpeak⟩ := exists_reruns hfits hleft hsteps hrebuilt htally
    refine ⟨n, ?_, hpeak⟩
    rw [supply, if_neg hheld]
    exact hn

include hw

omit hfits in
theorem rebuiltAt_subset (t : Moment) : w.rebuiltAt p t ⊆ Finset.range w.size := by
  -- Whatever is rebuilt stands in some replay list, and these hold dropped steps only.
  have hmem : ∀ v, ∀ j ∈ p.replayAt v, j ∈ Finset.range w.size := fun v j hj =>
    Finset.mem_range.mpr (hw.size_eq ▸ hp.lt_size (hp.isDropped hj))
  have hasked : ∀ i k, w.asked p i k ⊆ Finset.range w.size := by
    intro i k j hj
    obtain ⟨v, -, hj⟩ := mem_asked.mp hj
    exact hmem v j hj
  have hfrom : ∀ i, w.rebuiltFrom p i ⊆ Finset.range w.size := fun i =>
    Finset.biUnion_subset.mpr fun c _ => hasked c _
  cases t with
  | before i => exact Finset.empty_subset _
  | ran i k => exact Finset.empty_subset _
  | after i => exact hfrom i
  | supplied i k => exact Finset.union_subset (hfrom (i + 1)) (hasked i k)
  | replayed i k q =>
    refine Finset.union_subset (Finset.union_subset (hfrom (i + 1)) (hasked i k)) ?_
    intro j hj
    rw [List.mem_toFinset] at hj
    cases hv : (w.needs i)[k]? with
    | none => simp [hv] at hj
    | some v =>
      rw [hv, Option.elim_some] at hj
      exact hmem v j (List.mem_of_mem_take hj)

theorem arrives_supplied (h : i < w.size) (hk : k ≤ (w.needs i).length)
    (hafter : w.Arrives p (.after (i + 1))) : w.Arrives p (.supplied i k) := by
  induction k with
  | zero =>
    obtain ⟨m, hm, hpeak⟩ := hafter
    exact ⟨m, memoryAt_supplied_zero.trans hm, hpeak⟩
  | succ k ih =>
    obtain ⟨m, hm, hpeak⟩ := ih (Nat.le_of_succ_le hk)
    have htally := tallies_supplied hw hp h (Nat.le_of_succ_le hk)
      (fun m => tallies_after hw hp h) hm
    have hv := List.getElem?_eq_getElem hk
    have hlt := Nat.lt_succ_of_le (hw.le_of_mem_needs (List.mem_of_getElem? hv))
    obtain ⟨n, hn, hsame⟩ := exists_supply hfits hp h hlt (rebuiltAt_subset hw hp _) htally
    refine ⟨n, ?_, hsame.trans hpeak⟩
    rw [memoryAt_supplied_succ hv]
    exact bind_eq_ok_iff.mpr ⟨m, hm, hn⟩

theorem arrives_after (h : i ≤ w.size) : w.Arrives p (.after i) := by
  -- As the pass goes downwards, the induction is on the number of steps behind.
  obtain ⟨d, hd⟩ := Nat.exists_eq_add_of_le h
  induction d generalizing i with
  | zero =>
    obtain rfl : i = w.size := hd.symm
    obtain ⟨m, hm, -⟩ := arrives_before (p := p) hw hfits (Nat.le_refl _)
    refine ⟨{ m with peak := 0 }, ?_, ?_⟩
    · rw [memoryAt_after_size]
      exact bind_eq_ok_iff.mpr ⟨m, hm, rfl⟩
    · simp [peakAt]
  | succ d ih =>
    have hi : i < w.size := by omega
    have hnext := ih hi (by omega)
    obtain ⟨m, hm, hpeak⟩ := arrives_supplied hfits hw hp hi (Nat.le_refl _) hnext
    have htally := tallies_supplied hw hp hi (Nat.le_refl _) (fun m => tallies_after hw hp hi) hm
    obtain ⟨n, hn, hsame⟩ := (htally.stands.of_eq (n := m.observe) rfl rfl).exists_free i
    refine ⟨n, ?_, ?_⟩
    · rw [memoryAt_after hi]
      exact bind_eq_ok_iff.mpr ⟨m, hm, hn⟩
    · rw [hsame, peakAt_after hi]
      exact congrArg₂ max hpeak htally.stands.total_eq

/-- A simulation that fits ends, with the peaks and the cost that it has in closed form. -/
theorem run_of_fits : w.run p = .ok
    { forwardPeak := w.peakAt p (.before w.size)
      backwardPeak := w.peakAt p (.after 0)
      peak := max (w.peakAt p (.before w.size)) (w.peakAt p (.after 0))
      recomputeCost := ∑ j ∈ (Finset.range g.size).filter (fun j => p.isDropped j = true),
        w.costs.getD j 0 } := by
  obtain ⟨m, hm, hmpeak⟩ := arrives_before (p := p) hw hfits (Nat.le_refl _)
  obtain ⟨n, hn, hnpeak⟩ := arrives_after hfits hw hp (Nat.zero_le _)
  have hrun : w.run p = .ok ⟨m.peak, n.peak, max m.peak n.peak, n.cost⟩ := by
    rw [run_eq_memoryAt]
    exact bind_eq_ok_iff.mpr ⟨m, hm, bind_eq_ok_iff.mpr ⟨n, hn, rfl⟩⟩
  have hcost := (recomputeCost_of_run hw hp hrun).1
  rw [hrun, ← hmpeak, ← hnpeak, ← hcost]

end Backward

end Workload
end AndOrFlow
