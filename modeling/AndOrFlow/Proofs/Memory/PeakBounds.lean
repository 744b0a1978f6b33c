import AndOrFlow.Proofs.Memory.Peak

/-!
# Bounds on the peak

What is in memory when a step has run forward is there again when the backward pass has supplied
that step, so the backward pass decides the peak. It cannot be below what is retained, nor below a
step together with what the step reads, and it is never above the bytes of all outputs, which is
what retaining everything takes in either pass.
-/
namespace AndOrFlow

variable {Op : Type} {g : Dataflow Op} {p : Plan} {z : Sizing} {i j : Nat} {live : Finset Nat}

theorem nodup_distinct (xs : List Nat) : (distinct xs).Nodup := by
  induction xs with
  | nil => exact List.nodup_nil
  | cons x xs ih =>
    rw [distinct, List.nodup_cons]
    refine ⟨?_, ih.filter _⟩
    simp

namespace Dataflow

def volume (g : Dataflow Op) (z : Sizing) : Nat := g.load z (Finset.range g.size)

/-- The bytes of a step's output and of all outputs that it reads, each counted once. -/
def footprint (g : Dataflow Op) (z : Sizing) (i : Nat) : Nat :=
  (g.volumes z).getD i 0 + ((g.operands i).map fun j => (g.volumes z).getD j 0).sum

theorem nodup_operands (g : Dataflow Op) (i : Nat) : (g.operands i).Nodup := by
  rw [operands]
  cases g.step? i with
  | none => exact List.nodup_nil
  | some s => exact nodup_distinct s.reads

theorem load_mono {more : Finset Nat} (h : live ⊆ more) : g.load z live ≤ g.load z more :=
  Finset.sum_le_sum_of_subset h

theorem volume_eq (g : Dataflow Op) (z : Sizing) : g.volume z = (g.volumes z).toList.sum := by
  rw [sum_toList_eq, volumes, Array.size_map]
  rfl

theorem footprint_eq (g : Dataflow Op) (z : Sizing) (i : Nat) :
    g.footprint z i = g.load z (insert i (g.operands i).toFinset) := by
  have hnew : i ∉ (g.operands i).toFinset := by
    intro hi
    exact Nat.lt_irrefl i (g.operands_lt (List.mem_toFinset.mp hi))
  rw [load, Finset.sum_insert hnew, List.sum_toFinset _ (g.nodup_operands i)]
  rfl

end Dataflow

namespace Plan

def retained (g : Dataflow Op) (p : Plan) : Finset Nat :=
  (Finset.range g.size).filter fun j => p.isDropped j = false

theorem rebuilds_retainAll (g : Dataflow Op) : (retainAll g).Rebuilds g := by
  have hflags : ofDropped g #[] = retainAll g := by
    apply ofDropped_eq_retainAll
    intro i hdrops
    cases hdrops.2
  rw [← hflags]
  exact rebuilds_ofDropped g #[]

theorem isDropped_retainAll (g : Dataflow Op) (j : Nat) : (retainAll g).isDropped j = false := by
  rw [isDropped, decision?, retainAll, Array.getElem?_replicate]
  split
  · rfl
  · rfl

theorem mem_backwardLive_of_dropped (h : p.Rebuilds g) (hdrop : p.isDropped j = true) (hji : j ≤ i)
    (hneeded : i ≤ j ∨ ∃ c ∈ g.readers j, i ≤ c) : j ∈ p.backwardLive g i := by
  have hlt := Finset.mem_range.mpr (h.lt_size hdrop)
  apply Finset.mem_filter.mpr
  refine ⟨Finset.mem_range.mpr (Nat.lt_succ_of_le hji), Or.inr ?_⟩
  exact ⟨j, hlt, hdrop, h.self_mem hdrop, hneeded⟩

theorem mem_backwardLive_of_retained (hkeep : p.isDropped j = false) (hji : j ≤ i) :
    j ∈ p.backwardLive g i := by
  apply Finset.mem_filter.mpr
  exact ⟨Finset.mem_range.mpr (Nat.lt_succ_of_le hji), Or.inl hkeep⟩

/-- What is needed at a step is there, kept or rebuilt. -/
theorem mem_backwardLive (h : p.Rebuilds g) (hji : j ≤ i)
    (hneeded : i ≤ j ∨ ∃ c ∈ g.readers j, i ≤ c) : j ∈ p.backwardLive g i := by
  cases hdrop : p.isDropped j with
  | true => exact mem_backwardLive_of_dropped h hdrop hji hneeded
  | false => exact mem_backwardLive_of_retained hdrop hji

theorem forwardLive_subset (h : p.Rebuilds g) (i : Nat) :
    p.forwardLive g i ⊆ p.backwardLive g i := by
  intro j hj
  obtain ⟨hlt, hlive⟩ := Finset.mem_filter.mp hj
  have hji : j ≤ i := Nat.le_of_lt_succ (Finset.mem_range.mp hlt)
  rcases hlive with hkeep | rfl | hread
  · exact mem_backwardLive_of_retained hkeep hji
  · exact mem_backwardLive h hji (Or.inl le_rfl)
  · exact mem_backwardLive h hji (Or.inr hread)

theorem step_subset (h : p.Rebuilds g) (i : Nat) :
    insert i (g.operands i).toFinset ⊆ p.backwardLive g i := by
  apply Finset.insert_subset
  · exact mem_backwardLive h le_rfl (Or.inl le_rfl)
  · intro j hj
    have hread := List.mem_toFinset.mp hj
    apply mem_backwardLive h (Nat.le_of_lt (g.operands_lt hread))
    exact Or.inr ⟨i, Dataflow.mem_readers.mpr hread, le_rfl⟩

theorem backwardLive_subset (hi : i < g.size) : p.backwardLive g i ⊆ Finset.range g.size :=
  (Finset.filter_subset _ _).trans (Finset.range_subset_range.mpr hi)

theorem load_le_backwardPeak (hi : i < g.size) (h : live ⊆ p.backwardLive g i) :
    g.load z live ≤ p.backwardPeak g z := by
  have hpeak : g.load z (p.backwardLive g i) ≤ p.backwardPeak g z :=
    Finset.le_sup (f := fun i => g.load z (p.backwardLive g i)) (Finset.mem_range.mpr hi)
  exact (Dataflow.load_mono h).trans hpeak

theorem forwardPeak_le (h : p.Rebuilds g) (z : Sizing) : p.forwardPeak g z ≤ p.backwardPeak g z :=
  Finset.sup_mono_fun fun i _ => Dataflow.load_mono (forwardLive_subset h i)

theorem footprint_le (h : p.Rebuilds g) (z : Sizing) (hi : i < g.size) :
    g.footprint z i ≤ p.backwardPeak g z := by
  rw [g.footprint_eq]
  exact load_le_backwardPeak hi (step_subset h i)

/-- What is retained is all there before the last step of the backward pass. -/
theorem load_retained_le (g : Dataflow Op) (p : Plan) (z : Sizing) :
    g.load z (p.retained g) ≤ p.backwardPeak g z := by
  rcases Nat.eq_zero_or_pos g.size with hempty | hpos
  · rw [retained, hempty]
    exact Nat.zero_le _
  · apply load_le_backwardPeak (Nat.sub_one_lt_of_lt hpos)
    intro j hj
    obtain ⟨hlt, hkeep⟩ := Finset.mem_filter.mp hj
    exact mem_backwardLive_of_retained hkeep (Nat.le_sub_one_of_lt (Finset.mem_range.mp hlt))

theorem backwardPeak_le_volume (g : Dataflow Op) (p : Plan) (z : Sizing) :
    p.backwardPeak g z ≤ g.volume z := by
  apply Finset.sup_le
  intro i hi
  exact Dataflow.load_mono (backwardLive_subset (Finset.mem_range.mp hi))

theorem retained_retainAll (g : Dataflow Op) : (retainAll g).retained g = Finset.range g.size :=
  Finset.filter_true_of_mem fun j _ => isDropped_retainAll g j

theorem backwardPeak_retainAll (g : Dataflow Op) (z : Sizing) :
    (retainAll g).backwardPeak g z = g.volume z := by
  apply Nat.le_antisymm (backwardPeak_le_volume g _ z)
  have hkept := load_retained_le g (retainAll g) z
  rwa [retained_retainAll] at hkept

theorem forwardPeak_retainAll (g : Dataflow Op) (z : Sizing) :
    (retainAll g).forwardPeak g z = g.volume z := by
  apply Nat.le_antisymm
  · exact (forwardPeak_le (rebuilds_retainAll g) z).trans (backwardPeak_le_volume g _ z)
  · rcases Nat.eq_zero_or_pos g.size with hempty | hpos
    · rw [Dataflow.volume, hempty]
      exact Nat.zero_le _
    · have hlast := Nat.sub_one_lt_of_lt hpos
      have hall : Finset.range g.size ⊆ (retainAll g).forwardLive g (g.size - 1) := by
        intro j hj
        apply Finset.mem_filter.mpr
        rw [Nat.sub_one_add_one (Nat.ne_of_gt hpos)]
        exact ⟨hj, Or.inl (isDropped_retainAll g j)⟩
      have hpeak : g.load z ((retainAll g).forwardLive g (g.size - 1)) ≤
          (retainAll g).forwardPeak g z :=
        Finset.le_sup (f := fun i => g.load z ((retainAll g).forwardLive g i))
          (Finset.mem_range.mpr hlast)
      exact (Dataflow.load_mono hall).trans hpeak

end Plan

/-- The cost of running every dropped step once. -/
def Plan.replayCost (g : Dataflow Op) (p : Plan) : Nat :=
  ∑ j ∈ (Finset.range g.size).filter (fun j => p.isDropped j = true),
    (g.steps.map Step.cost).getD j 0

theorem Plan.replayCost_retainAll (g : Dataflow Op) : (retainAll g).replayCost g = 0 := by
  rw [replayCost, Finset.filter_false_of_mem, Finset.sum_empty]
  intro j _
  rw [isDropped_retainAll]
  exact Bool.false_ne_true

/-- The report on a plan that can be carried out; the backward pass decides the peak. -/
theorem simulate_of_rebuilds (h : z.Suits g) (hp : p.Rebuilds g) : simulate g p z =
    .ok ⟨p.forwardPeak g z, p.backwardPeak g z, p.backwardPeak g z, p.replayCost g⟩ := by
  obtain ⟨w, hflow, hbytes⟩ := Workload.exists_ofFlow h.bytes
  have hw := Workload.describes_of_ofFlow hflow
  have hrun := Workload.run_of_fits (h.fits hw hbytes) hw hp
  rw [Workload.peakAt_before_eq hw hbytes, Workload.peakAt_after_eq hw hp hbytes, hw.costs_eq,
    Nat.max_eq_right (Plan.forwardPeak_le hp z)] at hrun
  rw [simulate_eq_run hflow hp.size_eq, hrun]
  rfl

/-- What a report on a plan says, next to the one on the plan that retains everything. -/
structure Report.Bounded (g : Dataflow Op) (z : Sizing) (p : Plan) (r base : Report) : Prop where
  forward_le : r.forwardPeak ≤ r.backwardPeak
  peak_eq : r.peak = r.backwardPeak
  retained_le : g.load z (p.retained g) ≤ r.peak
  footprint_le : ∀ i < g.size, g.footprint z i ≤ r.peak
  peak_le : r.peak ≤ base.peak
  base_eq : base = ⟨(g.volumes z).toList.sum, (g.volumes z).toList.sum,
    (g.volumes z).toList.sum, 0⟩

/-- Whatever a plan drops, its peak lies between these bounds. -/
theorem simulate_bounded (g : Dataflow Op) (flags : DropFlags) (z : Sizing) (h : z.Suits g) :
    ∃ r base, simulate g (.ofDropped g flags) z = .ok r ∧
      simulate g (.retainAll g) z = .ok base ∧ peakOf g (.retainAll g) z = .ok base.peak ∧
      r.Bounded g z (.ofDropped g flags) base := by
  have hp := Plan.rebuilds_ofDropped g flags
  have hbase := simulate_of_rebuilds h (Plan.rebuilds_retainAll g)
  rw [Plan.forwardPeak_retainAll, Plan.backwardPeak_retainAll, Plan.replayCost_retainAll] at hbase
  refine ⟨_, _, simulate_of_rebuilds h hp, hbase, ?_, ?_⟩
  · rw [peakOf, hbase]
    rfl
  · exact {
      forward_le := Plan.forwardPeak_le hp z
      peak_eq := rfl
      retained_le := Plan.load_retained_le g _ z
      footprint_le := fun i hi => Plan.footprint_le hp z hi
      peak_le := Plan.backwardPeak_le_volume g _ z
      base_eq := by rw [g.volume_eq] }

theorem simulate_bounded_twoPaths : (⟨1, .f32⟩ : Sizing).Suits twoPaths ∧
    simulate twoPaths (.ofDropped twoPaths #[true, false, true]) ⟨1, .f32⟩ =
      .ok ⟨48, 64, 64, 10⟩ ∧
    ∃ base, simulate twoPaths (.retainAll twoPaths) ⟨1, .f32⟩ = .ok base ∧
      Report.Bounded twoPaths ⟨1, .f32⟩ (.ofDropped twoPaths #[true, false, true])
        ⟨48, 64, 64, 10⟩ base := by
  have h : (⟨1, .f32⟩ : Sizing).Suits twoPaths :=
    Sizing.suits_of_pos (by decide +kernel) (by decide +kernel) (by decide +kernel)
  have hreport : simulate twoPaths (.ofDropped twoPaths #[true, false, true]) ⟨1, .f32⟩ =
      .ok ⟨48, 64, 64, 10⟩ := by cbv
  obtain ⟨r, base, hr, hbase, -, hbounded⟩ :=
    simulate_bounded twoPaths #[true, false, true] ⟨1, .f32⟩ h
  obtain rfl := Except.ok.inj (hr.symm.trans hreport)
  exact ⟨h, hreport, base, hbase, hbounded⟩

end AndOrFlow
