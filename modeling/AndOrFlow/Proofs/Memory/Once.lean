import AndOrFlow.Proofs.Memory.Safety
import AndOrFlow.Proofs.Memory.Cost

/-!
# Every dropped output is rebuilt once

A replay is told by a backward step, an output that the step needs, and an entry of the replay list
of that output. A dropped output enters memory in the first replay that asks for it, and stays there
up to its own step, after which nothing asks for it. So one replay brings it back, no replay brings
back a retained output, and the cost paid by a simulation is the cost that its plan announces.
-/
namespace AndOrFlow

namespace Workload

variable {Op : Type} {g : Dataflow Op} {w : Workload} {p : Plan} {m : Memory} {report : Report}
  {i k q r v : Nat}

structure Replay where
  /-- The step that needs an output. -/
  step : Nat
  /-- The place of the output among those that the step needs. -/
  need : Nat
  /-- The place in the replay list of that output. -/
  entry : Nat

/-- The output of step `r` is missing before the replay and in memory after it. -/
structure Enters (w : Workload) (p : Plan) (t : Replay) (r : Nat) : Prop where
  lt_size : t.step < w.size
  lt_length : ∃ v, (w.needs t.step)[t.need]? = some v ∧ t.entry < (p.replayAt v).length
  missing : ∃ m, w.memoryAt p (.replayed t.step t.need t.entry) = .ok m ∧ ¬ m.Holds r
  held : ∃ m, w.memoryAt p (.replayed t.step t.need (t.entry + 1)) = .ok m ∧ m.Holds r

/-- A pass that gets to its end has got to every moment before. -/
theorem exists_supplied_of_length (hk : k ≤ (w.needs i).length)
    (h : ∃ m, w.memoryAt p (.supplied i (w.needs i).length) = .ok m) :
    ∃ m, w.memoryAt p (.supplied i k) = .ok m := by
  induction hk using Nat.decreasingInduction with
  | self => exact h
  | of_succ k hk ih =>
    obtain ⟨m, hm⟩ := ih
    rw [memoryAt_supplied_succ (List.getElem?_eq_getElem hk)] at hm
    obtain ⟨m₀, hm₀, -⟩ := bind_eq_ok_iff.mp hm
    exact ⟨m₀, hm₀⟩

theorem exists_after (h : ∃ m, w.memoryAt p (.after 0) = .ok m) (hi : i ≤ w.size) :
    ∃ m, w.memoryAt p (.after i) = .ok m := by
  induction i with
  | zero => exact h
  | succ i ih =>
    obtain ⟨m, hm⟩ := ih (Nat.le_of_succ_le hi)
    rw [memoryAt_after hi] at hm
    obtain ⟨m₀, hm₀, -⟩ := bind_eq_ok_iff.mp hm
    rw [← memoryAt_supplied_zero]
    exact exists_supplied_of_length (Nat.zero_le _) ⟨m₀, hm₀⟩

theorem exists_supplyPart {n : Memory} (h : w.supply p m v = .ok n) (q : Nat) :
    ∃ m', w.supplyPart p v q m = .ok m' := by
  unfold supplyPart
  split
  · exact ⟨m, rfl⟩
  · rename_i hheld
    rw [supply, if_neg hheld] at h
    have hsplit : ((p.replayAt v).take q ++ (p.replayAt v).drop q).foldlM w.rerun m = .ok n := by
      rw [List.take_append_drop]
      exact h
    rw [List.foldlM_append] at hsplit
    obtain ⟨m', hm', -⟩ := bind_eq_ok_iff.mp hsplit
    exact ⟨m', hm'⟩

theorem exists_replayed (h : ∃ m, w.memoryAt p (.after 0) = .ok m) (hi : i < w.size)
    (hv : (w.needs i)[k]? = some v) (q : Nat) : ∃ m, w.memoryAt p (.replayed i k q) = .ok m := by
  obtain ⟨m, hm⟩ := exists_after h (Nat.le_of_lt hi)
  rw [memoryAt_after hi] at hm
  obtain ⟨m₁, hm₁, -⟩ := bind_eq_ok_iff.mp hm
  have hk : k < (w.needs i).length := (List.getElem?_eq_some_iff.mp hv).1
  obtain ⟨m₂, hm₂⟩ := exists_supplied_of_length hk ⟨m₁, hm₁⟩
  rw [memoryAt_supplied_succ hv] at hm₂
  obtain ⟨m₃, hm₃, hsupply⟩ := bind_eq_ok_iff.mp hm₂
  obtain ⟨m₄, hm₄⟩ := exists_supplyPart hsupply q
  refine ⟨m₄, ?_⟩
  rw [memoryAt_replayed hv]
  exact bind_eq_ok_iff.mpr ⟨m₃, hm₃, hm₄⟩

theorem exists_first_asked (hr : r ∈ w.asked p i k) :
    ∃ j v, (w.needs i)[j]? = some v ∧ r ∈ p.replayAt v ∧ r ∉ w.asked p i j := by
  induction k with
  | zero => simp [asked] at hr
  | succ k ih =>
    by_cases hbefore : r ∈ w.asked p i k
    · exact ih hbefore
    · obtain ⟨v, hv, hmem⟩ := mem_asked.mp hr
      rw [List.take_add_one, List.mem_append] at hv
      rcases hv with hv | hv
      · exact absurd (mem_asked.mpr ⟨v, hv, hmem⟩) hbefore
      · exact ⟨k, v, Option.mem_toList.mp hv, hmem, hbefore⟩

section

variable (hw : w.Describes g) (hp : p.Rebuilds g)
include hw hp

/-- Within a replay list that the step asks for, an output is in memory if it is retained, if it
was rebuilt before, or if it is among the entries behind. -/
theorem holds_replayed_iff (hi : i < w.size) (hv : (w.needs i)[k]? = some v)
    (hq : q ≤ (p.replayAt v).length) (hm : w.memoryAt p (.replayed i k q) = .ok m) :
    m.Holds r ↔ r < i + 1 ∧ (p.isDropped r = false ∨ r ∈ w.rebuiltAt p (.supplied i k) ∨
      r ∈ (p.replayAt v).take q) := by
  have hpass : w.Passes p (.replayed i k q) := ⟨hi, v, hv, hq⟩
  have hrebuilt : w.rebuiltAt p (.replayed i k q) =
      w.rebuiltAt p (.supplied i k) ∪ ((p.replayAt v).take q).toFinset := by
    rw [rebuiltAt, rebuiltAt, hv, Option.elim_some]
  rw [(tallies_memoryAt hw hp hpass hm).stands.holds_iff, heldAt, mem_heldOf, hrebuilt,
    Finset.mem_union, List.mem_toFinset]

/-- The output that a replay brings back is the one that it runs, and none has done so before. -/
theorem enters_iff (h : ∃ m, w.memoryAt p (.after 0) = .ok m) :
    w.Enters p ⟨i, k, q⟩ r ↔ i < w.size ∧ ∃ v, (w.needs i)[k]? = some v ∧
      (p.replayAt v)[q]? = some r ∧ r ∉ w.rebuiltAt p (.supplied i k) := by
  constructor
  · rintro ⟨hi, ⟨v, hv, hq⟩, ⟨m, hm, hmissing⟩, n, hn, hheld⟩
    refine ⟨hi, v, hv, ?_⟩
    rw [holds_replayed_iff hw hp hi hv (Nat.le_of_lt hq) hm] at hmissing
    rw [holds_replayed_iff hw hp hi hv hq hn, List.take_add_one, List.mem_append] at hheld
    obtain ⟨hr, hheld⟩ := hheld
    simp only [hr, true_and, not_or] at hmissing
    obtain ⟨hkept, hbefore, hbehind⟩ := hmissing
    rcases hheld with hheld | hheld | hheld | hheld
    · exact absurd hheld hkept
    · exact absurd hheld hbefore
    · exact absurd hheld hbehind
    · exact ⟨Option.mem_toList.mp hheld, hbefore⟩
  · rintro ⟨hi, v, hv, hr, hbefore⟩
    have hq := (List.getElem?_eq_some_iff.mp hr).1
    have hmem := List.mem_of_getElem? hr
    have hlt : r < i + 1 :=
      Nat.lt_succ_of_le (Nat.le_trans (hp.le hmem) (hw.le_of_mem_needs (List.mem_of_getElem? hv)))
    have hdrop := hp.isDropped hmem
    have hbehind : r ∉ (p.replayAt v).take q := by
      intro hin
      have hrest : r ∈ (p.replayAt v).drop q :=
        List.mem_of_getElem? (i := 0) (by rwa [List.getElem?_drop, Nat.add_zero])
      have hsplit := hp.ascending v
      rw [← List.take_append_drop q (p.replayAt v), List.pairwise_append] at hsplit
      exact Nat.lt_irrefl r (hsplit.2.2 r hin r hrest)
    obtain ⟨m, hm⟩ := exists_replayed h hi hv q
    obtain ⟨n, hn⟩ := exists_replayed h hi hv (q + 1)
    refine ⟨hi, ⟨v, hv, hq⟩, ⟨m, hm, ?_⟩, n, hn, ?_⟩
    · rw [holds_replayed_iff hw hp hi hv (Nat.le_of_lt hq) hm]
      simp [hdrop, hbefore, hbehind]
    · rw [holds_replayed_iff hw hp hi hv hq hn, List.take_add_one, List.mem_append, hr]
      simp [hlt]

theorem exists_enters (h : ∃ m, w.memoryAt p (.after 0) = .ok m) (hi : i ≤ w.size)
    (hr : r ∈ w.rebuiltFrom p i) : ∃ t, w.Enters p t r := by
  -- The last step that asks for `r` is the first one of the pass; so the induction goes downwards.
  induction hi using Nat.decreasingInduction with
  | self => simp [rebuiltFrom] at hr
  | of_succ i hi ih =>
    by_cases hbefore : r ∈ w.rebuiltFrom p (i + 1)
    · exact ih hbefore
    · rw [rebuiltFrom_eq hi, Finset.mem_union] at hr
      obtain ⟨k, v, hv, hmem, hfirst⟩ :=
        exists_first_asked (hr.resolve_left hbefore)
      obtain ⟨q, hq⟩ := List.getElem?_of_mem hmem
      refine ⟨⟨i, k, q⟩, (enters_iff hw hp h).mpr ⟨hi, v, hv, hq, ?_⟩⟩
      rw [rebuiltAt, Finset.mem_union]
      exact fun hin => hin.elim hbefore hfirst

theorem enters_unique (h : ∃ m, w.memoryAt p (.after 0) = .ok m) {s t : Replay}
    (hs : w.Enters p s r) (ht : w.Enters p t r) : s = t := by
  obtain ⟨i, k, q⟩ := s
  obtain ⟨j, l, o⟩ := t
  obtain ⟨hi, v, hv, hq, hfresh⟩ := (enters_iff hw hp h).mp hs
  obtain ⟨hj, u, hu, ho, hfresh'⟩ := (enters_iff hw hp h).mp ht
  rw [rebuiltAt, Finset.mem_union, not_or] at hfresh hfresh'
  -- What a step asks for has been rebuilt when the steps before it are reached.
  have hsteps : ∀ {a b c d e : Nat}, b < a → a < w.size → (w.needs a)[c]? = some d →
      (p.replayAt d)[e]? = some r → r ∈ w.rebuiltFrom p (b + 1) := fun hba ha hd he =>
    mem_rebuiltFrom.mpr ⟨_, hba, ha, _, List.mem_of_getElem? hd, List.mem_of_getElem? he⟩
  have hneeds : ∀ {c d e f : Nat}, c < f → (w.needs i)[c]? = some d →
      (p.replayAt d)[e]? = some r → r ∈ w.asked p i f := fun hcf hd he =>
    mem_asked.mpr ⟨_, List.mem_iff_getElem?.mpr
      ⟨_, (List.getElem?_take_of_lt hcf).trans hd⟩, List.mem_of_getElem? he⟩
  have hij : i = j := by
    rcases Nat.lt_trichotomy i j with hlt | heq | hlt
    · exact absurd (hsteps hlt hj hu ho) hfresh.1
    · exact heq
    · exact absurd (hsteps hlt hi hv hq) hfresh'.1
  subst hij
  have hkl : k = l := by
    rcases Nat.lt_trichotomy k l with hlt | heq | hlt
    · exact absurd (hneeds hlt hv hq) hfresh'.2
    · exact heq
    · exact absurd (hneeds hlt hu ho) hfresh.2
  subst hkl
  obtain rfl := Option.some.inj (hv.symm.trans hu)
  have hqo : q = o :=
    (List.getElem?_inj (List.getElem?_eq_some_iff.mp hq).1
      ((hp.ascending v).imp Nat.ne_of_lt)).mp (hq.trans ho.symm)
  rw [hqo]

/-- In a backward pass that ends each dropped output enters memory in one replay, and a retained
output in none. -/
theorem existsUnique_enters (h : ∃ m, w.memoryAt p (.after 0) = .ok m) (r : Nat) :
    (p.isDropped r = true → ∃! t, w.Enters p t r) ∧
      (p.isDropped r = false → ∀ t, ¬ w.Enters p t r) := by
  constructor
  · intro hdrop
    have hmem : r ∈ w.rebuiltFrom p 0 := by
      rw [rebuiltFrom_zero hw hp]
      exact Finset.mem_filter.mpr ⟨Finset.mem_range.mpr (hp.lt_size hdrop), hdrop⟩
    obtain ⟨t, ht⟩ := exists_enters hw hp h (Nat.zero_le _) hmem
    exact ⟨t, ht, fun s hs => enters_unique hw hp h hs ht⟩
  · rintro hkept ⟨i, k, q⟩ ht
    obtain ⟨-, v, -, hr, -⟩ := (enters_iff hw hp h).mp ht
    have hdrop := hp.isDropped (List.mem_of_getElem? hr)
    simp [hkept] at hdrop

end

theorem exists_after_zero (h : w.run p = .ok report) : ∃ m, w.memoryAt p (.after 0) = .ok m := by
  rw [run_eq_memoryAt] at h
  obtain ⟨m, -, h⟩ := bind_eq_ok_iff.mp h
  obtain ⟨n, hn, -⟩ := bind_eq_ok_iff.mp h
  exact ⟨n, hn⟩

end Workload

/-- A simulation that ends has paid what its plan announces: every dropped output enters memory in
one replay, and no retained one in any. -/
theorem simulate_replays_once {Op : Type} (g : Dataflow Op) (flags : DropFlags) (z : Sizing)
    (report : Report) (h : simulate g (.ofDropped g flags) z = .ok report) :
    (Plan.ofDropped g flags).recomputeCost g = .ok report.recomputeCost ∧
      ∃ w, Workload.ofFlow g z = .ok w ∧ w.run (.ofDropped g flags) = .ok report ∧ ∀ r,
        ((Plan.ofDropped g flags).isDropped r = true →
          ∃! t, w.Enters (.ofDropped g flags) t r) ∧
        ((Plan.ofDropped g flags).isDropped r = false →
          ∀ t, ¬ w.Enters (.ofDropped g flags) t r) := by
  have hp := Plan.rebuilds_ofDropped g flags
  obtain ⟨-, w, hflow, hrun⟩ := simulate_eq_ok_iff.mp h
  have hw := Workload.describes_of_ofFlow hflow
  have hend := Workload.exists_after_zero hrun
  exact ⟨recomputeCost_of_simulate hp h, w, hflow, hrun,
    Workload.existsUnique_enters hw hp hend⟩

theorem simulate_replays_once_twoPaths :
    simulate twoPaths (.ofDropped twoPaths #[true, true, true]) ⟨1, .f32⟩ =
        .ok ⟨48, 64, 64, 15⟩ ∧
      (Plan.ofDropped twoPaths #[true, true, true]).recomputeCost twoPaths = .ok 15 ∧
      (∃! t, twoPathsLoad.Enters (.ofDropped twoPaths #[true, true, true]) t 0) ∧
      ∀ t, ¬ twoPathsLoad.Enters (.ofDropped twoPaths #[true, true, true]) t 4 := by
  have hrun : simulate twoPaths (.ofDropped twoPaths #[true, true, true]) ⟨1, .f32⟩ =
      .ok ⟨48, 64, 64, 15⟩ := by cbv
  obtain ⟨hcost, w, hflow, -, henters⟩ :=
    simulate_replays_once twoPaths #[true, true, true] ⟨1, .f32⟩ _ hrun
  have hload : Workload.ofFlow twoPaths ⟨1, .f32⟩ = .ok twoPathsLoad := by cbv
  obtain rfl : w = twoPathsLoad := Except.ok.inj (hflow.symm.trans hload)
  exact ⟨hrun, hcost, (henters 0).1 (by decide), (henters 4).2 (by decide)⟩

end AndOrFlow
