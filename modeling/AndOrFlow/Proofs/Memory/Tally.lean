import Mathlib.Algebra.Order.Interval.Finset.SuccPred
import Mathlib.Data.Nat.SuccPred
import Mathlib.Order.Interval.Finset.Nat
import Mathlib.Tactic.Tauto
import AndOrFlow.Proofs.Memory.LiveSet
import AndOrFlow.Proofs.Memory.Moment
import AndOrFlow.Proofs.Memory.Readers

/-!
# What is in memory at every moment

The set of outputs in memory has a closed form at every moment of a simulation, and so has the set
of those that were rebuilt. Retained outputs are always there. Of the dropped ones the forward pass
keeps those that a later step reads, and the backward pass has those that the steps behind it asked
for.
-/
namespace AndOrFlow

namespace Workload

variable {Op : Type} {g : Dataflow Op} {w : Workload} {p : Plan} {m n : Memory}
  {rebuilt : Finset Nat} {i j k q r v left : Nat}

def ReadFrom (w : Workload) (i j : Nat) : Prop := ∃ c ∈ Finset.Ico i w.size, j ∈ w.operandsOf c

instance (w : Workload) (i j : Nat) : Decidable (w.ReadFrom i j) :=
  inferInstanceAs (Decidable (∃ c ∈ _, _))

/-- All that the first `k` outputs needed by step `i` ask to be replayed. -/
def asked (w : Workload) (p : Plan) (i k : Nat) : Finset Nat :=
  (((w.needs i).take k).flatMap p.replayAt).toFinset

/-- All that the steps from `i` on ask to be replayed. -/
def rebuiltFrom (w : Workload) (p : Plan) (i : Nat) : Finset Nat :=
  (Finset.Ico i w.size).biUnion fun c => w.asked p c (w.needs c).length

def rebuiltAt (w : Workload) (p : Plan) : Moment → Finset Nat
  | .before _ => ∅
  | .ran _ _ => ∅
  | .after i => w.rebuiltFrom p i
  | .supplied i k => w.rebuiltFrom p (i + 1) ∪ w.asked p i k
  | .replayed i k q => w.rebuiltFrom p (i + 1) ∪ w.asked p i k ∪
      (((w.needs i)[k]?).elim [] fun v => (p.replayAt v).take q).toFinset

/-- The outputs in memory during the backward pass, if these were rebuilt. -/
def heldOf (p : Plan) (left : Nat) (rebuilt : Finset Nat) : Finset Nat :=
  (Finset.range left).filter fun j => p.isDropped j = false ∨ j ∈ rebuilt

def heldAt (w : Workload) (p : Plan) : Moment → Finset Nat
  | .before i => (Finset.range i).filter fun j => p.isDropped j = false ∨ w.ReadFrom i j
  | .ran i k => (Finset.range (i + 1)).filter fun j => j = i ∨ p.isDropped j = false ∨
      w.ReadFrom (i + 1) j ∨ (j ∈ w.operandsOf i ∧ j ∉ (w.operandsOf i).take k)
  | .after i => heldOf p i (w.rebuiltAt p (.after i))
  | .supplied i k => heldOf p (i + 1) (w.rebuiltAt p (.supplied i k))
  | .replayed i k q => heldOf p (i + 1) (w.rebuiltAt p (.replayed i k q))

/-- The memory holds these outputs, and the replays of those rebuilt have been paid for. -/
structure Tallies (w : Workload) (held rebuilt : Finset Nat) (m : Memory) : Prop where
  stands : m.Stands w.bytes held
  cost_eq : m.cost = ∑ j ∈ rebuilt, w.costs.getD j 0
  cost_lt : m.cost < Word.limit

theorem Tallies.of_stands {held kept : Finset Nat} (h : w.Tallies held rebuilt m)
    (hstands : n.Stands w.bytes kept) (hcost : n.cost = m.cost) : w.Tallies kept rebuilt n :=
  ⟨hstands, hcost.trans h.cost_eq, hcost ▸ h.cost_lt⟩

theorem readFrom_succ (h : i < w.size) :
    w.ReadFrom i j ↔ j ∈ w.operandsOf i ∨ w.ReadFrom (i + 1) j := by
  rw [ReadFrom, ← Finset.insert_Ico_add_one_left_eq_Ico h, Finset.exists_mem_insert]
  rfl

theorem heldAt_ran_zero (h : i < w.size) :
    w.heldAt p (.ran i 0) = insert i (w.heldAt p (.before i)) := by
  ext j
  simp only [heldAt, Finset.mem_filter, Finset.mem_range, Finset.mem_insert, List.take_zero,
    List.not_mem_nil, not_false_eq_true, and_true, readFrom_succ h]
  by_cases hj : j = i
  · simp [hj]
  · have hlt : j < i + 1 ↔ j < i := by omega
    simp only [hj, hlt, false_or]
    tauto

theorem Tallies.free_if {held : Finset Nat} {c : Prop} [Decidable c]
    (h : w.Tallies held rebuilt m) (hn : (if c then m.free w.bytes j else .ok m) = .ok n) :
    w.Tallies (if c then held.erase j else held) rebuilt n := by
  split at hn
  · rename_i hc
    obtain ⟨hstands, hcost⟩ := h.stands.free hn
    rw [if_pos hc]
    exact h.of_stands hstands hcost
  · rename_i hc
    obtain rfl := Except.ok.inj hn
    rw [if_neg hc]
    exact h

section Forward

variable (hw : w.Describes g)
include hw

theorem Describes.lt (hj : j ∈ w.operandsOf i) : j < i ∧ i < w.size := by
  rw [hw.operandsOf_eq] at hj
  exact ⟨g.operands_lt hj, hw.size_eq ▸ Dataflow.lt_size_of_mem_operands hj⟩

theorem Describes.le_of_mem_needs (hv : v ∈ w.needs i) : v ≤ i := by
  rcases List.mem_cons.mp hv with rfl | hv
  · exact Nat.le_refl v
  · exact Nat.le_of_lt (hw.lt hv).1

theorem Describes.lastReaderOf_eq_some_iff (hj : j ∈ w.operandsOf i) :
    w.lastReaderOf j = some i ↔ ¬ w.ReadFrom (i + 1) j := by
  rw [hw.lastReaderOf_eq_some]
  simp only [← hw.operandsOf_eq]
  constructor
  · rintro ⟨-, hlast⟩ ⟨c, hc, hread⟩
    have hle := hlast c hread
    have hgt := (Finset.mem_Ico.mp hc).1
    omega
  · intro hnone
    refine ⟨hj, fun c hread => Nat.le_of_not_lt fun hlt => hnone ?_⟩
    exact ⟨c, Finset.mem_Ico.mpr ⟨hlt, (hw.lt hread).2⟩, hread⟩

theorem Describes.lastReaderOf_eq_none_iff :
    w.lastReaderOf i = none ↔ ¬ w.ReadFrom (i + 1) i := by
  rw [hw.lastReaderOf_eq_none]
  simp only [← hw.operandsOf_eq]
  constructor
  · rintro hnone ⟨c, -, hread⟩
    exact hnone c hread
  · intro hnone c hread
    obtain ⟨hlt, hc⟩ := hw.lt hread
    exact hnone ⟨c, Finset.mem_Ico.mpr ⟨hlt, hc⟩, hread⟩

theorem heldAt_ran_succ (hj : (w.operandsOf i)[k]? = some j) :
    w.heldAt p (.ran i (k + 1)) =
      if p.isDropped j = true ∧ w.lastReaderOf j = some i then (w.heldAt p (.ran i k)).erase j
      else w.heldAt p (.ran i k) := by
  -- A release concerns `j` alone, which is no longer needed unless a later step reads it.
  have hmem := List.mem_of_getElem? hj
  have hne : j ≠ i := Nat.ne_of_lt (hw.lt hmem).1
  simp only [hw.lastReaderOf_eq_some_iff hmem]
  ext x
  by_cases hx : x = j
  · subst hx
    cases hdrop : p.isDropped x
    · simp [heldAt, hdrop]
    · by_cases hread : w.ReadFrom (i + 1) x <;>
        simp [heldAt, List.take_add_one, hj, hdrop, hread, hne]
  · split <;> simp [heldAt, List.take_add_one, hj, hx]

theorem heldAt_before_succ :
    w.heldAt p (.before (i + 1)) =
      if p.isDropped i = true ∧ w.lastReaderOf i = none then
        (w.heldAt p (.ran i (w.operandsOf i).length)).erase i
      else w.heldAt p (.ran i (w.operandsOf i).length) := by
  simp only [hw.lastReaderOf_eq_none_iff]
  ext x
  by_cases hx : x = i
  · subst hx
    cases hdrop : p.isDropped x
    · simp [heldAt, hdrop]
    · by_cases hread : w.ReadFrom (x + 1) x <;> simp [heldAt, hdrop, hread]
  · split <;> simp [heldAt, hx]

/-- A step runs and its operands are released one by one. -/
theorem tallies_ran (h : i < w.size) (hk : k ≤ (w.operandsOf i).length)
    (hbefore : ∀ m, w.memoryAt p (.before i) = .ok m → w.Tallies (w.heldAt p (.before i)) ∅ m)
    (hm : w.memoryAt p (.ran i k) = .ok m) : w.Tallies (w.heldAt p (.ran i k)) ∅ m := by
  induction k generalizing m with
  | zero =>
    rw [memoryAt_ran_zero] at hm
    obtain ⟨m₀, hm₀, hm⟩ := bind_eq_ok_iff.mp hm
    obtain ⟨m₁, hm₁, hm⟩ := bind_eq_ok_iff.mp hm
    obtain rfl := Except.ok.inj hm
    have htally := hbefore m₀ hm₀
    obtain ⟨hstands, hcost⟩ := htally.stands.alloc h hm₁
    rw [heldAt_ran_zero h]
    exact htally.of_stands (hstands.of_eq rfl rfl) hcost
  | succ k ih =>
    have hj := List.getElem?_eq_getElem hk
    rw [memoryAt_ran_succ hj] at hm
    obtain ⟨m₀, hm₀, hm⟩ := bind_eq_ok_iff.mp hm
    have htally := ih (Nat.le_of_succ_le hk) hm₀
    rw [heldAt_ran_succ hw hj]
    exact htally.free_if hm

theorem tallies_before (h : i ≤ w.size) (hm : w.memoryAt p (.before i) = .ok m) :
    w.Tallies (w.heldAt p (.before i)) ∅ m := by
  induction i generalizing m with
  | zero =>
    rw [memoryAt_before_zero] at hm
    obtain rfl := Except.ok.inj hm
    exact ⟨Memory.stands_empty w.bytes, rfl, Nat.two_pow_pos 64⟩
  | succ i ih =>
    rw [memoryAt_before_succ] at hm
    obtain ⟨m₀, hm₀, hm⟩ := bind_eq_ok_iff.mp hm
    have htally := tallies_ran hw h (Nat.le_refl _) (fun m => ih (Nat.le_of_succ_le h)) hm₀
    rw [heldAt_before_succ hw]
    exact htally.free_if hm

end Forward

section Backward

theorem mem_heldOf : j ∈ heldOf p left rebuilt ↔
    j < left ∧ (p.isDropped j = false ∨ j ∈ rebuilt) := by
  simp only [heldOf, Finset.mem_filter, Finset.mem_range]

theorem mem_asked : j ∈ w.asked p i k ↔ ∃ v ∈ (w.needs i).take k, j ∈ p.replayAt v := by
  simp only [asked, List.mem_toFinset, List.mem_flatMap]

theorem mem_rebuiltFrom : j ∈ w.rebuiltFrom p i ↔
    ∃ c, i ≤ c ∧ c < w.size ∧ ∃ v ∈ w.needs c, j ∈ p.replayAt v := by
  simp only [rebuiltFrom, Finset.mem_biUnion, Finset.mem_Ico, mem_asked, List.take_length,
    and_assoc]

theorem rebuiltFrom_eq (h : i < w.size) :
    w.rebuiltFrom p i = w.rebuiltFrom p (i + 1) ∪ w.asked p i (w.needs i).length := by
  rw [rebuiltFrom, ← Finset.insert_Ico_add_one_left_eq_Ico h, Finset.biUnion_insert,
    Finset.union_comm]
  rfl

theorem asked_succ (h : (w.needs i)[k]? = some v) :
    w.asked p i (k + 1) = w.asked p i k ∪ (p.replayAt v).toFinset := by
  rw [asked, List.take_add_one, h, List.flatMap_append, List.toFinset_append]
  simp [asked]

theorem tallies_rerun (hleft : left ≤ w.size) (hr : r < left) (hdrop : p.isDropped r = true)
    (htally : w.Tallies (heldOf p left rebuilt) rebuilt m) (hn : w.rerun m r = .ok n) :
    w.Tallies (heldOf p left (insert r rebuilt)) (insert r rebuilt) n := by
  -- Of the dropped outputs below `left` those in memory are those rebuilt.
  have hheld : m.Holds r ↔ r ∈ rebuilt := by
    rw [htally.stands.holds_iff, mem_heldOf]
    simp [hr, hdrop]
  by_cases hmem : r ∈ rebuilt
  · rw [rerun, if_pos (hheld.mpr hmem)] at hn
    obtain rfl := Except.ok.inj hn
    rw [Finset.insert_eq_of_mem hmem]
    exact htally
  · rw [rerun, if_neg (fun h => hmem (hheld.mp h))] at hn
    obtain ⟨m₁, hm₁, hn⟩ := bind_eq_ok_iff.mp hn
    obtain ⟨cost, hcost, hn⟩ := bind_eq_ok_iff.mp hn
    obtain rfl := Except.ok.inj hn
    obtain ⟨hstands, hsame⟩ := htally.stands.alloc (Nat.lt_of_lt_of_le hr hleft) hm₁
    have hset : heldOf p left (insert r rebuilt) = insert r (heldOf p left rebuilt) := by
      ext j
      simp only [mem_heldOf, Finset.mem_insert]
      by_cases hj : j = r
      · simp [hj, hr]
      · simp [hj]
    obtain ⟨hsum, hlt⟩ := Word.add_eq_ok_iff.mp hcost
    rw [hset]
    refine ⟨hstands.of_eq rfl rfl, ?_, hlt⟩
    rw [Finset.sum_insert hmem, ← hsum, hsame, htally.cost_eq, Nat.add_comm]

theorem tallies_reruns {steps : List Nat} (hleft : left ≤ w.size)
    (hsteps : ∀ r ∈ steps, r < left ∧ p.isDropped r = true)
    (htally : w.Tallies (heldOf p left rebuilt) rebuilt m)
    (hn : steps.foldlM w.rerun m = .ok n) :
    w.Tallies (heldOf p left (rebuilt ∪ steps.toFinset)) (rebuilt ∪ steps.toFinset) n := by
  induction steps generalizing m rebuilt with
  | nil =>
    obtain rfl := Except.ok.inj hn
    simpa using htally
  | cons r rest ih =>
    rw [List.foldlM_cons] at hn
    obtain ⟨m₁, hm₁, hn⟩ := bind_eq_ok_iff.mp hn
    obtain ⟨hr, hdrop⟩ := hsteps r (by simp)
    have hstep := tallies_rerun hleft hr hdrop htally hm₁
    have hrest := ih (fun r hr => hsteps r (by simp [hr])) hstep hn
    rwa [List.toFinset_cons, Finset.union_insert, ← Finset.insert_union]

variable (hw : w.Describes g) (hp : p.Rebuilds g)
include hp

theorem tallies_supplyPart (hleft : left ≤ w.size) (hv : v < left)
    (hclosed : v ∈ rebuilt → ∀ j ∈ p.replayAt v, j ∈ rebuilt)
    (htally : w.Tallies (heldOf p left rebuilt) rebuilt m)
    (hn : w.supplyPart p v q m = .ok n) :
    w.Tallies (heldOf p left (rebuilt ∪ ((p.replayAt v).take q).toFinset))
      (rebuilt ∪ ((p.replayAt v).take q).toFinset) n := by
  unfold supplyPart at hn
  split at hn
  · -- What is there already is retained, or was rebuilt with its whole replay list.
    rename_i hheld
    obtain rfl := Except.ok.inj hn
    have hsub : ((p.replayAt v).take q).toFinset ⊆ rebuilt := by
      intro j hj
      have hj := List.mem_of_mem_take (List.mem_toFinset.mp hj)
      obtain ⟨-, hkept | hmem⟩ := mem_heldOf.mp ((htally.stands.holds_iff v).mp hheld)
      · have hdrop := ((hp.mem_replayAt v j).mp hj).1
        simp [hkept] at hdrop
      · exact hclosed hmem j hj
    rwa [Finset.union_eq_left.mpr hsub]
  · refine tallies_reruns hleft (fun r hr => ?_) htally hn
    have hr := List.mem_of_mem_take hr
    exact ⟨Nat.lt_of_le_of_lt (hp.le hr) hv, hp.isDropped hr⟩

/-- What is rebuilt has been rebuilt with all that its replay list asks for. -/
theorem rebuiltAt_supplied_closed (hv : v ∈ w.rebuiltAt p (.supplied i k)) (hj : j ∈ p.replayAt v) :
    j ∈ w.rebuiltAt p (.supplied i k) := by
  rcases Finset.mem_union.mp hv with hv | hv
  · obtain ⟨c, hic, hc, u, hu, hv⟩ := mem_rebuiltFrom.mp hv
    exact Finset.mem_union_left _ (mem_rebuiltFrom.mpr ⟨c, hic, hc, u, hu, hp.trans hv hj⟩)
  · obtain ⟨u, hu, hv⟩ := mem_asked.mp hv
    exact Finset.mem_union_right _ (mem_asked.mpr ⟨u, hu, hp.trans hv hj⟩)

include hw

theorem tallies_part (h : i < w.size) (hv : (w.needs i)[k]? = some v)
    (htally : w.Tallies (w.heldAt p (.supplied i k)) (w.rebuiltAt p (.supplied i k)) m)
    (hn : w.supplyPart p v q m = .ok n) :
    w.Tallies (heldOf p (i + 1) (w.rebuiltAt p (.supplied i k) ∪ ((p.replayAt v).take q).toFinset))
      (w.rebuiltAt p (.supplied i k) ∪ ((p.replayAt v).take q).toFinset) n := by
  have hle := hw.le_of_mem_needs (List.mem_of_getElem? hv)
  exact tallies_supplyPart hp h (Nat.lt_succ_of_le hle)
    (fun hmem j => rebuiltAt_supplied_closed hp hmem) htally hn

/-- The outputs that a step needs are supplied one by one. -/
theorem tallies_supplied (h : i < w.size) (hk : k ≤ (w.needs i).length)
    (hafter : ∀ m, w.memoryAt p (.after (i + 1)) = .ok m →
      w.Tallies (w.heldAt p (.after (i + 1))) (w.rebuiltAt p (.after (i + 1))) m)
    (hm : w.memoryAt p (.supplied i k) = .ok m) :
    w.Tallies (w.heldAt p (.supplied i k)) (w.rebuiltAt p (.supplied i k)) m := by
  induction k generalizing m with
  | zero =>
    rw [memoryAt_supplied_zero] at hm
    have hnone : w.asked p i 0 = ∅ := rfl
    rw [heldAt, rebuiltAt, hnone, Finset.union_empty]
    exact hafter m hm
  | succ k ih =>
    have hv := List.getElem?_eq_getElem hk
    rw [memoryAt_supplied_succ hv] at hm
    obtain ⟨m₀, hm₀, hm⟩ := bind_eq_ok_iff.mp hm
    have htally := ih (Nat.le_of_succ_le hk) hm₀
    rw [← supplyPart_length] at hm
    have hpart := tallies_part hw hp h hv htally hm
    rw [List.take_length] at hpart
    rw [heldAt, rebuiltAt, asked_succ hv, ← Finset.union_assoc]
    exact hpart

theorem tallies_after (h : i ≤ w.size) (hm : w.memoryAt p (.after i) = .ok m) :
    w.Tallies (w.heldAt p (.after i)) (w.rebuiltAt p (.after i)) m := by
  -- The pass goes downwards, so the induction is on the number of steps behind.
  obtain ⟨d, hd⟩ := Nat.exists_eq_add_of_le h
  induction d generalizing i m with
  | zero =>
    obtain rfl : i = w.size := hd.symm
    rw [memoryAt_after_size] at hm
    obtain ⟨m₀, hm₀, hm⟩ := bind_eq_ok_iff.mp hm
    obtain rfl := Except.ok.inj hm
    have htally := tallies_before hw (Nat.le_refl _) hm₀
    have hrebuilt : w.rebuiltAt p (.after w.size) = ∅ := by simp [rebuiltAt, rebuiltFrom]
    have hheld : w.heldAt p (.after w.size) = w.heldAt p (.before w.size) := by
      simp [heldAt, heldOf, hrebuilt, ReadFrom]
    rw [hheld, hrebuilt]
    exact htally.of_stands (htally.stands.of_eq rfl rfl) rfl
  | succ d ih =>
    have hi : i < w.size := by omega
    rw [memoryAt_after hi] at hm
    obtain ⟨m₀, hm₀, hm⟩ := bind_eq_ok_iff.mp hm
    have htally := tallies_supplied hw hp hi (Nat.le_refl _) (fun m hm => ih hi hm (by omega)) hm₀
    obtain ⟨hstands, hcost⟩ := (htally.stands.of_eq (n := m₀.observe) rfl rfl).free hm
    have hrebuilt : w.rebuiltAt p (.after i) =
        w.rebuiltAt p (.supplied i (w.needs i).length) := rebuiltFrom_eq hi
    have hheld : w.heldAt p (.after i) =
        (w.heldAt p (.supplied i (w.needs i).length)).erase i := by
      ext j
      rw [heldAt, heldAt, hrebuilt, Finset.mem_erase, mem_heldOf, mem_heldOf]
      have hlt : j < i ↔ j ≠ i ∧ j < i + 1 := by omega
      rw [hlt, and_assoc]
    rw [hheld, hrebuilt]
    exact htally.of_stands hstands hcost

/-- Whenever a simulation gets to a moment, its memory is the expected one. -/
theorem tallies_memoryAt {t : Moment} (ht : w.Passes p t) (hm : w.memoryAt p t = .ok m) :
    w.Tallies (w.heldAt p t) (w.rebuiltAt p t) m := by
  cases t with
  | before i => exact tallies_before hw ht hm
  | ran i k => exact tallies_ran hw ht.1 ht.2 (fun m => tallies_before hw (Nat.le_of_lt ht.1)) hm
  | after i => exact tallies_after hw hp ht hm
  | supplied i k => exact tallies_supplied hw hp ht.1 ht.2 (fun m => tallies_after hw hp ht.1) hm
  | replayed i k q =>
    obtain ⟨hi, v, hv, -⟩ := ht
    rw [memoryAt_replayed hv] at hm
    obtain ⟨m₀, hm₀, hm⟩ := bind_eq_ok_iff.mp hm
    have hk : k ≤ (w.needs i).length := Nat.le_of_lt (List.getElem?_eq_some_iff.mp hv).1
    have htally := tallies_supplied hw hp hi hk (fun m => tallies_after hw hp hi) hm₀
    have hpart := tallies_part hw hp hi hv htally hm
    rw [heldAt, rebuiltAt, hv]
    exact hpart

end Backward

end Workload
end AndOrFlow
