import AndOrFlow.Proofs.Memory.Block

/-!
# Threshold plans of a chain

In a chain a dropped output is rebuilt from the last retained one before it. So what is in memory at
a step of the backward pass is retained, or it is a dropped output of the block that the step is in.
The retained bytes and the largest block, the two sizes that a threshold plan comes with, are a
bound on its peak.
-/
namespace AndOrFlow

variable {Op : Type} {g : Dataflow Op} {z : Sizing} {p : Plan} {i j k v : Nat}

/-- Every step reads the step right before it, or none. -/
def Dataflow.IsChain (g : Dataflow Op) : Prop := ∀ i, ∀ j ∈ g.operands i, j + 1 = i

theorem Dataflow.load_union_le (g : Dataflow Op) (z : Sizing) (left right : Finset Nat) :
    g.load z (left ∪ right) ≤ g.load z left + g.load z right := by
  have hsum : g.load z (left ∪ right) + g.load z (left ∩ right) = g.load z left + g.load z right :=
    Finset.sum_union_inter
  exact Nat.le_trans (Nat.le_add_right _ _) (Nat.le_of_eq hsum)

namespace Plan

/-- In a chain a replay passes over dropped steps only. -/
theorem Rebuilds.isDropped_of_chain (h : p.Rebuilds g) (hchain : g.IsChain)
    (hj : j ∈ p.replayAt v) (hjk : j ≤ k) (hkv : k ≤ v) : p.isDropped k = true := by
  induction v using Nat.strongRecOn with
  | ind v ih =>
    have hreplay := (h.mem_replayAt v j).mp hj
    rcases Nat.eq_or_lt_of_le hkv with rfl | hlt
    · exact hreplay.1
    · rcases hreplay.2 with rfl | ⟨u, hu, hj⟩
      · omega
      · have hnext := hchain v u hu
        exact ih u (by omega) hj (by omega)

theorem backwardLive_subset_of_chain (h : p.Rebuilds g) (hchain : g.IsChain) (hi : i < g.size)
    (hk : i ∈ p.blockAt k) : p.backwardLive g i ⊆ p.retained g ∪ p.blockAt k := by
  intro j hj
  have hlive := Finset.mem_filter.mp hj
  have hji : j ≤ i := Nat.le_of_lt_succ (Finset.mem_range.mp hlive.1)
  rcases hlive.2 with hkept | ⟨v, -, -, hreplay, hneeded⟩
  · exact Finset.mem_union_left _ (mem_keptBelow.mpr ⟨Nat.lt_of_le_of_lt hji hi, hkept⟩)
  · have hblock := mem_blockAt.mp hk
    -- The step that asks for it is the next one after the replay at most.
    have hiv : i ≤ v + 1 := by
      rcases hneeded with hle | ⟨c, hread, hle⟩
      · exact Nat.le_succ_of_le hle
      · rw [hchain c v (Dataflow.mem_readers.mp hread)]
        exact hle
    refine Finset.mem_union_right _ (mem_blockAt.mpr ⟨Nat.le_trans hji hblock.1, ?_⟩)
    intro l hjl hlk
    rcases Nat.lt_or_ge l i with hli | hil
    · exact h.isDropped_of_chain hchain hreplay hjl (by omega)
    · exact hblock.2 l hil hlk

/-- The blocks of a chain bound what a plan has in memory. -/
theorem backwardPeak_le_of_chain (h : p.Rebuilds g) (hchain : g.IsChain) (hout : p.KeepsOutput g)
    (z : Sizing) : p.backwardPeak g z ≤
      g.load z (p.retained g) + (p.retained g).sup fun i => g.load z (p.blockAt i) := by
  apply Finset.sup_le
  intro i hi
  have hlt := Finset.mem_range.mp hi
  obtain ⟨k, hk, hmem⟩ := exists_mem_blockAt hout hlt
  have hblock : g.load z (p.blockAt k) ≤ (p.retained g).sup fun i => g.load z (p.blockAt i) :=
    Finset.le_sup (f := fun i => g.load z (p.blockAt i)) hk
  calc g.load z (p.backwardLive g i)
      ≤ g.load z (p.retained g ∪ p.blockAt k) :=
        Dataflow.load_mono (backwardLive_subset_of_chain h hchain hlt hmem)
    _ ≤ g.load z (p.retained g) + g.load z (p.blockAt k) := g.load_union_le z _ _
    _ ≤ _ := Nat.add_le_add_left hblock _

end Plan

namespace BlockPlan

/-- In a chain the peak of a threshold plan is within its retained bytes and its largest block. -/
theorem peakOf_le_of_chain (g : Dataflow Op) (z : Sizing) (hchain : g.IsChain) (h : z.Suits g)
    (threshold : Nat) : ∃ m peak, make g z threshold = .ok m ∧
      peakOf g m.plan z = .ok peak ∧ peak ≤ m.saved + m.largest := by
  obtain ⟨m, hmake⟩ := exists_make h.bytes h.total_lt threshold
  have hfrugal := frugal_of_make hmake
  have hp : m.plan.Rebuilds g := by
    rw [hfrugal.plan_eq]
    exact Plan.rebuilds_ofDropped g _
  have hpeak := Plan.backwardPeak_le_of_chain hp hchain hfrugal.keepsOutput z
  rw [← hfrugal.saved_eq, ← hfrugal.largest_eq] at hpeak
  refine ⟨m, m.plan.backwardPeak g z, hmake, ?_, hpeak⟩
  rw [peakOf, simulate_of_rebuilds h hp]
  rfl

end BlockPlan

theorem isChain_unevenChain : unevenChain.IsChain := by
  intro i j hj
  have hlt := Dataflow.lt_size_of_mem_operands hj
  have hall : ∀ i < 4, ∀ j ∈ unevenChain.operands i, j + 1 = i := by decide
  exact hall i hlt j hj

theorem peakOf_le_of_chain_unevenChain :
    unevenChain.IsChain ∧ (⟨1, .u8⟩ : Sizing).Suits unevenChain ∧
    peakOf unevenChain (.ofDropped unevenChain #[true, false, true, false]) ⟨1, .u8⟩ = .ok 5 ∧
    BlockPlan.make unevenChain ⟨1, .u8⟩ 2 =
      .ok ⟨.ofDropped unevenChain #[true, false, true, false], 2, 3, 4⟩ ∧ 5 ≤ 4 + 3 := by
  have h : (⟨1, .u8⟩ : Sizing).Suits unevenChain :=
    Sizing.suits_of_pos (by decide +kernel) (by decide +kernel) (by decide +kernel)
  have hmake : BlockPlan.make unevenChain ⟨1, .u8⟩ 2 =
      .ok ⟨.ofDropped unevenChain #[true, false, true, false], 2, 3, 4⟩ := by decide +kernel
  have hpeak : peakOf unevenChain (.ofDropped unevenChain #[true, false, true, false]) ⟨1, .u8⟩ =
      .ok 5 := by decide +kernel
  obtain ⟨m, peak, hm, hp, hle⟩ :=
    BlockPlan.peakOf_le_of_chain unevenChain ⟨1, .u8⟩ isChain_unevenChain h 2
  obtain rfl := Except.ok.inj (hm.symm.trans hmake)
  obtain rfl := Except.ok.inj (hp.symm.trans hpeak)
  exact ⟨isChain_unevenChain, h, hpeak, hmake, hle⟩

end AndOrFlow
