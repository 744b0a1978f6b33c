import AndOrFlow.Proofs.Memory.Completion
import AndOrFlow.Proofs.Memory.PeakBounds
import AndOrFlow.Proofs.Memory.Retry
import Mathlib.Combinatorics.Enumerative.DoubleCounting

/-!
# Blocks

A plan cuts the execution order after every output that it retains. A threshold plan closes a block
as soon as its bytes exceed the threshold, so what it drops of a block is within the threshold, and
every block but the last is above it. A plan that drops no run of steps above the threshold retains
a step of every such block, and the last block holds the graph output, which is retained anyway. So
no such plan retains fewer steps.
-/
namespace AndOrFlow

variable {Op : Type} {g : Dataflow Op} {z : Sizing} {p q : Plan} {threshold i j k lo hi : Nat}

namespace Plan

def openBlock (p : Plan) (k : Nat) : Finset Nat :=
  (Finset.range k).filter fun j => ∀ i ∈ Finset.Ico j k, p.isDropped i = true

/-- Step `i` with the dropped steps right before it: the block that it ends, if it is retained. -/
def blockAt (p : Plan) (i : Nat) : Finset Nat := insert i (p.openBlock i)

def keptBelow (p : Plan) (k : Nat) : Finset Nat :=
  (Finset.range k).filter fun j => p.isDropped j = false

/-- The steps from `lo` to before `hi` are dropped, and no step next to them is. -/
structure IsRun (p : Plan) (lo hi : Nat) : Prop where
  lt : lo < hi
  dropped : ∀ i ∈ Finset.Ico lo hi, p.isDropped i = true
  before : ∀ i, i + 1 = lo → p.isDropped i = false
  after : p.isDropped hi = false

/-- No run of dropped steps has more bytes than the threshold. -/
def RunsWithin (g : Dataflow Op) (z : Sizing) (threshold : Nat) (p : Plan) : Prop :=
  ∀ lo hi, p.IsRun lo hi → g.load z (Finset.Ico lo hi) ≤ threshold

def KeepsOutput (g : Dataflow Op) (p : Plan) : Prop :=
  ∀ i, g.output? = some i → p.isDropped i = false

theorem keepsOutput_ofDropped (g : Dataflow Op) (flags : DropFlags) :
    (ofDropped g flags).KeepsOutput g := by
  intro i hi
  refine Bool.eq_false_iff.mpr fun hdrop => ?_
  exact (isDropped_ofDropped_iff.mp hdrop).2.1 hi

theorem mem_openBlock : j ∈ p.openBlock k ↔
    j < k ∧ ∀ i, j ≤ i → i < k → p.isDropped i = true := by
  simp only [openBlock, Finset.mem_filter, Finset.mem_range, Finset.mem_Ico, and_imp]

theorem mem_blockAt : j ∈ p.blockAt i ↔
    j ≤ i ∧ ∀ k, j ≤ k → k < i → p.isDropped k = true := by
  rw [blockAt, Finset.mem_insert, mem_openBlock]
  constructor
  · intro h
    rcases h with rfl | h
    · exact ⟨le_rfl, fun k hle hlt => absurd hle (Nat.not_le_of_lt hlt)⟩
    · exact ⟨Nat.le_of_lt h.1, h.2⟩
  · intro h
    rcases Nat.eq_or_lt_of_le h.1 with heq | hlt
    · exact Or.inl heq
    · exact Or.inr ⟨hlt, h.2⟩

theorem mem_keptBelow : j ∈ p.keptBelow k ↔ j < k ∧ p.isDropped j = false := by
  simp only [keptBelow, Finset.mem_filter, Finset.mem_range]

theorem self_mem_blockAt (p : Plan) (i : Nat) : i ∈ p.blockAt i := Finset.mem_insert_self _ _

theorem openBlock_succ_of_dropped (h : p.isDropped k = true) :
    p.openBlock (k + 1) = p.blockAt k := by
  ext j
  rw [mem_openBlock, mem_blockAt, Nat.lt_succ_iff]
  refine and_congr_right fun _ => ⟨fun hall i hle hlt => hall i hle (Nat.lt_succ_of_lt hlt), ?_⟩
  intro hall i hle hlt
  rcases Nat.lt_succ_iff_lt_or_eq.mp hlt with hlt | rfl
  · exact hall i hle hlt
  · exact h

theorem openBlock_succ_of_retained (h : p.isDropped k = false) : p.openBlock (k + 1) = ∅ := by
  apply Finset.eq_empty_of_forall_notMem
  intro j hj
  have hopen := mem_openBlock.mp hj
  have hdrop := hopen.2 k (Nat.le_of_lt_succ hopen.1) (Nat.lt_succ_self k)
  rw [h] at hdrop
  cases hdrop

theorem keptBelow_succ_of_dropped (h : p.isDropped k = true) :
    p.keptBelow (k + 1) = p.keptBelow k := by
  rw [keptBelow, Finset.range_add_one, Finset.filter_insert, if_neg (by simp [h])]
  rfl

theorem keptBelow_succ_of_retained (h : p.isDropped k = false) :
    p.keptBelow (k + 1) = insert k (p.keptBelow k) := by
  rw [keptBelow, Finset.range_add_one, Finset.filter_insert, if_pos h]
  rfl

/-- Before any step the dropped steps reach back to a retained one, or to the first step. -/
theorem exists_openBlock_eq (p : Plan) (k : Nat) : ∃ lo ≤ k, p.openBlock k = Finset.Ico lo k ∧
    ∀ i, i + 1 = lo → p.isDropped i = false := by
  induction k with
  | zero => exact ⟨0, le_rfl, rfl, fun i hi => absurd hi (Nat.succ_ne_zero i)⟩
  | succ k ih =>
    cases hdrop : p.isDropped k with
    | false =>
      refine ⟨k + 1, le_rfl, ?_, fun i hi => ?_⟩
      · rw [openBlock_succ_of_retained hdrop, Finset.Ico_self]
      · rwa [Nat.succ.inj hi]
    | true =>
      obtain ⟨lo, hle, hopen, hbefore⟩ := ih
      refine ⟨lo, Nat.le_succ_of_le hle, ?_, hbefore⟩
      rw [openBlock_succ_of_dropped hdrop, blockAt, hopen,
        Finset.insert_Ico_right_eq_Ico_add_one hle]

/-- From any step on, the steps are dropped up to one that is not. -/
theorem exists_block_end (p : Plan) (i : Nat) : ∃ hi, i ≤ hi ∧ p.isDropped hi = false ∧
    ∀ k, i ≤ k → k < hi → p.isDropped k = true := by
  have hsome : ∃ hi, i ≤ hi ∧ p.isDropped hi = false := by
    refine ⟨i + p.size, Nat.le_add_right _ _, ?_⟩
    have hnone : p.decision? (i + p.size) = none :=
      Array.getElem?_eq_none (Nat.le_add_left _ _)
    rw [isDropped, hnone]
    rfl
  have hfound := Nat.find_spec hsome
  refine ⟨Nat.find hsome, hfound.1, hfound.2, fun k hle hlt => ?_⟩
  have hnot := Nat.find_min hsome hlt
  simpa [hle] using hnot

theorem eq_of_mem_blockAt (hi : p.isDropped i = false) (hk : p.isDropped k = false)
    (hji : j ∈ p.blockAt i) (hjk : j ∈ p.blockAt k) : i = k := by
  have hleft := mem_blockAt.mp hji
  have hright := mem_blockAt.mp hjk
  rcases Nat.lt_trichotomy i k with hlt | heq | hlt
  · exact absurd (hright.2 i hleft.1 hlt) (by simp [hi])
  · exact heq
  · exact absurd (hleft.2 k hright.1 hlt) (by simp [hk])

/-- What is dropped right before a retained step is a run. -/
theorem RunsWithin.openBlock_le (h : p.RunsWithin g z threshold) (hk : p.isDropped k = false) :
    g.load z (p.openBlock k) ≤ threshold := by
  obtain ⟨lo, hle, hopen, hbefore⟩ := p.exists_openBlock_eq k
  rcases Nat.eq_or_lt_of_le hle with rfl | hlt
  · rw [hopen, Finset.Ico_self]
    exact Nat.zero_le _
  · rw [hopen]
    refine h lo k ⟨hlt, fun i hi => ?_, hbefore, hk⟩
    rw [← hopen] at hi
    have hmem := mem_openBlock.mp hi
    exact hmem.2 i le_rfl hmem.1

/-- Of the first `n` steps, those are dropped up to which the open block is within the threshold,
but for the graph output. -/
def FillsBelow (g : Dataflow Op) (z : Sizing) (threshold n : Nat) (p : Plan) : Prop :=
  ∀ i < n, p.isDropped i = true ↔ g.output? ≠ some i ∧ g.load z (p.blockAt i) ≤ threshold

theorem exists_mem_blockAt (hout : p.KeepsOutput g) (hi : i < g.size) :
    ∃ k ∈ p.retained g, i ∈ p.blockAt k := by
  obtain ⟨k, hik, hkept, hdropped⟩ := p.exists_block_end i
  refine ⟨k, mem_keptBelow.mpr ⟨?_, hkept⟩, mem_blockAt.mpr ⟨hik, hdropped⟩⟩
  refine Nat.lt_of_not_le fun hle => ?_
  -- The block does not go on behind the last step, which yields the output.
  have hlast := hout (g.size - 1) (if_neg (Nat.ne_of_gt (Nat.zero_lt_of_lt hi)))
  rw [hdropped (g.size - 1) (Nat.le_sub_one_of_lt hi) (by omega)] at hlast
  cases hlast

theorem load_insert {live : Finset Nat} (hk : k ∉ live) :
    g.load z (insert k live) = g.load z live + (g.volumes z).getD k 0 := by
  rw [Dataflow.load, Finset.sum_insert hk, Nat.add_comm]
  rfl

theorem load_blockAt (g : Dataflow Op) (z : Sizing) (p : Plan) (k : Nat) :
    g.load z (p.blockAt k) = g.load z (p.openBlock k) + (g.volumes z).getD k 0 :=
  load_insert fun hk => Nat.lt_irrefl k (mem_openBlock.mp hk).1

theorem existsUnique_blockAt (hout : p.KeepsOutput g) (hj : j < g.size) :
    ∃! i, i ∈ p.retained g ∧ j ∈ p.blockAt i := by
  obtain ⟨i, hi, hmem⟩ := exists_mem_blockAt hout hj
  refine ⟨i, ⟨hi, hmem⟩, fun k hk => ?_⟩
  exact eq_of_mem_blockAt (mem_keptBelow.mp hk.1).2 (mem_keptBelow.mp hi).2 hk.2 hmem

namespace FillsBelow

theorem runsWithin (h : p.FillsBelow g z threshold g.size) (hsize : p.size = g.size) :
    p.RunsWithin g z threshold := by
  intro lo hi hrun
  have hlast : hi - 1 ∈ Finset.Ico lo hi := Finset.mem_Ico.mpr (by have := hrun.lt; omega)
  have hdrop := hrun.dropped _ hlast
  have hload := ((h _ (lt_size_of_isDropped hsize hdrop)).mp hdrop).2
  refine Nat.le_trans (Dataflow.load_mono fun j hj => ?_) hload
  have hmem := Finset.mem_Ico.mp hj
  refine mem_blockAt.mpr ⟨by omega, fun k hle hlt => hrun.dropped k ?_⟩
  exact Finset.mem_Ico.mpr (by omega)

theorem lt_load (h : p.FillsBelow g z threshold g.size) (hi : i ∈ p.retained g)
    (hout : g.output? ≠ some i) : threshold < g.load z (p.blockAt i) := by
  have hkept := mem_keptBelow.mp hi
  refine Nat.lt_of_not_le fun hle => ?_
  have hdrop := (h i hkept.1).mpr ⟨hout, hle⟩
  rw [hkept.2] at hdrop
  cases hdrop

/-- A plan whose runs are within the threshold retains a step of every block that is above it. -/
theorem exists_kept (h : p.FillsBelow g z threshold g.size) (hout : q.KeepsOutput g)
    (hruns : q.RunsWithin g z threshold) (hi : i ∈ p.retained g) :
    ∃ j ∈ q.retained g, j ∈ p.blockAt i := by
  have hkept := mem_keptBelow.mp hi
  by_cases hlast : g.output? = some i
  · exact ⟨i, mem_keptBelow.mpr ⟨hkept.1, hout i hlast⟩, p.self_mem_blockAt i⟩
  · by_contra hnone
    have hall : ∀ j ∈ p.blockAt i, q.isDropped j = true := by
      intro j hj
      have hlt := Nat.lt_of_le_of_lt (mem_blockAt.mp hj).1 hkept.1
      cases hdrop : q.isDropped j with
      | true => rfl
      | false => exact absurd ⟨j, mem_keptBelow.mpr ⟨hlt, hdrop⟩, hj⟩ hnone
    obtain ⟨hi, hle, hend, hdropped⟩ := q.exists_block_end i
    have hne : i ≠ hi := by
      rintro rfl
      rw [hall i (p.self_mem_blockAt i)] at hend
      cases hend
    -- The block lies in the run of the other plan that goes on behind it.
    have hsub : p.blockAt i ⊆ q.openBlock hi := by
      intro j hj
      have hblock := mem_blockAt.mp hj
      refine mem_openBlock.mpr ⟨by omega, fun k hjk hk => ?_⟩
      rcases Nat.lt_or_ge k i with hki | hik
      · refine hall k (mem_blockAt.mpr ⟨Nat.le_of_lt hki, fun l hkl hl => ?_⟩)
        exact hblock.2 l (Nat.le_trans hjk hkl) hl
      · exact hdropped k hik hk
    have habove := h.lt_load ‹_› hlast
    have hwithin := hruns.openBlock_le hend
    exact absurd (Nat.le_trans (Dataflow.load_mono hsub) hwithin) (Nat.not_le_of_lt habove)

theorem card_retained_le (h : p.FillsBelow g z threshold g.size) (hout : q.KeepsOutput g)
    (hruns : q.RunsWithin g z threshold) : (p.retained g).card ≤ (q.retained g).card := by
  apply Finset.card_le_card_of_forall_subsingleton fun i j => j ∈ p.blockAt i
  · exact fun i hi => h.exists_kept hout hruns hi
  · intro j _ i hi k hk
    exact eq_of_mem_blockAt (mem_keptBelow.mp hi.1).2 (mem_keptBelow.mp hk.1).2 hi.2 hk.2

end FillsBelow
end Plan

namespace BlockWalk

variable {w u v : BlockWalk} {isOutput : Bool} {bytes : Nat}
  {before steps : List (Step Op)}

/-- What the walk has counted when it has passed the first `k` steps, of which `p` drops the flagged
ones. -/
structure Accounts (g : Dataflow Op) (z : Sizing) (threshold : Nat) (p : Plan) (k : Nat)
    (w : BlockWalk) : Prop where
  size_eq : w.flags.size = k
  block_eq : w.block = g.load z (p.openBlock k)
  largest_eq : w.largest = (p.keptBelow k).sup fun i => g.load z (p.blockAt i)
  saved_eq : w.saved = g.load z (p.keptBelow k)
  fills : p.FillsBelow g z threshold k

theorem next_cases (h : w.next threshold isOutput bytes = .ok v) :
    ((threshold < w.block + bytes ∨ isOutput = true) ∧
      v = ⟨w.flags.push false, 0, max w.largest (w.block + bytes), w.saved + bytes⟩) ∨
    (¬ (threshold < w.block + bytes ∨ isOutput = true) ∧
      v = ⟨w.flags.push true, w.block + bytes, w.largest, w.saved⟩) := by
  obtain ⟨block, hblock, h⟩ := bind_eq_ok_iff.mp h
  obtain rfl := (Word.add_eq_ok_iff.mp hblock).1
  split at h
  · rename_i hcloses
    obtain ⟨saved, hsaved, h⟩ := bind_eq_ok_iff.mp h
    obtain rfl := (Word.add_eq_ok_iff.mp hsaved).1
    exact Or.inl ⟨hcloses, (Except.ok.inj h).symm⟩
  · rename_i hopen
    exact Or.inr ⟨hopen, (Except.ok.inj h).symm⟩

theorem getElem?_flags_next (h : w.next threshold isOutput bytes = .ok v)
    (hi : i < w.flags.size) : v.flags[i]? = w.flags[i]? := by
  rcases next_cases h with ⟨-, rfl⟩ | ⟨-, rfl⟩
  · exact Array.getElem?_push_lt hi ▸ (Array.getElem?_eq_getElem hi).symm
  · exact Array.getElem?_push_lt hi ▸ (Array.getElem?_eq_getElem hi).symm

/-- A flag once set stays. -/
theorem getElem?_flags_onward (h : onward z threshold steps w = .ok u)
    (hi : i < w.flags.size) : u.flags[i]? = w.flags[i]? := by
  induction steps generalizing w with
  | nil =>
    obtain rfl := Except.ok.inj h
    rfl
  | cons s rest ih =>
    obtain ⟨bytes, -, h⟩ := bind_eq_ok_iff.mp h
    obtain ⟨v, hv, h⟩ := bind_eq_ok_iff.mp h
    rw [ih h (by rw [size_flags_next hv]; omega), getElem?_flags_next hv hi]

theorem Accounts.next (h : w.Accounts g z threshold p k)
    (hnext : w.next threshold isOutput ((g.volumes z).getD k 0) = .ok v)
    (hout : isOutput = true ↔ g.output? = some k)
    (hflag : p.isDropped k = true ↔ v.flags[k]? = some true) :
    v.Accounts g z threshold p (k + 1) := by
  have hload := Plan.load_blockAt g z p k
  rw [← h.block_eq] at hload
  rcases next_cases hnext with ⟨hcloses, rfl⟩ | ⟨hopen, rfl⟩
  · have hkept : p.isDropped k = false := by
      rw [Bool.eq_false_iff, ne_eq, hflag, ← h.size_eq, Array.getElem?_push_size]
      simp
    have hnew : k ∉ p.keptBelow k := fun hk => Nat.lt_irrefl k (Plan.mem_keptBelow.mp hk).1
    constructor
    · simp [h.size_eq]
    · rw [Plan.openBlock_succ_of_retained hkept]
      rfl
    · rw [Plan.keptBelow_succ_of_retained hkept, Finset.sup_insert, hload, ← h.largest_eq,
        max_comm]
    · rw [Plan.keptBelow_succ_of_retained hkept, Plan.load_insert hnew, ← h.saved_eq]
    · intro i hi
      rcases Nat.lt_succ_iff_lt_or_eq.mp hi with hi | rfl
      · exact h.fills i hi
      · rw [hkept, hload, ne_eq, ← hout]
        simp only [Bool.false_eq_true, false_iff, not_and_or, not_not, Nat.not_le]
        exact hcloses.symm
  · have hdrop : p.isDropped k = true := by
      rw [hflag, ← h.size_eq, Array.getElem?_push_size]
    constructor
    · simp [h.size_eq]
    · rw [Plan.openBlock_succ_of_dropped hdrop, hload]
    · rw [Plan.keptBelow_succ_of_dropped hdrop]
      exact h.largest_eq
    · rw [Plan.keptBelow_succ_of_dropped hdrop]
      exact h.saved_eq
    · intro i hi
      rcases Nat.lt_succ_iff_lt_or_eq.mp hi with hi | rfl
      · exact h.fills i hi
      · rw [hload, ne_eq, ← hout]
        rw [not_or, Nat.not_lt] at hopen
        exact ⟨fun _ => ⟨hopen.2, hopen.1⟩, fun _ => hdrop⟩

theorem Accounts.onward (h : w.Accounts g z threshold p k)
    (hsteps : g.steps.toList = before ++ steps) (hk : before.length = k)
    (honward : BlockWalk.onward z threshold steps w = .ok u)
    (hflags : ∀ i, p.isDropped i = true ↔ g.output? ≠ some i ∧ u.flags[i]? = some true) :
    u.Accounts g z threshold p g.size := by
  induction steps generalizing w before k with
  | nil =>
    obtain rfl := Except.ok.inj honward
    have hsize : k = g.size := by
      simpa [← hk, Dataflow.size] using (congrArg List.length hsteps).symm
    rwa [← hsize]
  | cons s rest ih =>
    obtain ⟨bytes, hbytes, honward⟩ := bind_eq_ok_iff.mp honward
    obtain ⟨v, hv, honward⟩ := bind_eq_ok_iff.mp honward
    have hsize : g.size = k + (rest.length + 1) := by
      simpa [← hk, Dataflow.size] using congrArg List.length hsteps
    have hstep : g.steps[k]? = some s := by
      rw [← Array.getElem?_toList, hsteps, ← hk, List.getElem?_append_right le_rfl, Nat.sub_self]
      rfl
    have hvolume : (g.volumes z).getD k 0 = bytes := by
      rw [← Sizing.volume_of_bytes hbytes]
      simp [Dataflow.volumes, Array.getD_eq_getD_getElem?, hstep]
    rw [← hvolume] at hv
    have hout : rest.isEmpty = true ↔ g.output? = some k := by
      rw [Dataflow.output?, if_neg (by omega), Option.some.injEq, List.isEmpty_iff,
        ← List.length_eq_zero_iff]
      omega
    have hlater : u.flags[k]? = v.flags[k]? :=
      getElem?_flags_onward honward (by rw [size_flags_next hv, h.size_eq]; omega)
    have hflag : p.isDropped k = true ↔ v.flags[k]? = some true := by
      rw [hflags, hlater, ne_eq, ← hout]
      refine ⟨fun hdrop => hdrop.2, fun hflag => ⟨fun hempty => ?_, hflag⟩⟩
      rcases next_cases hv with ⟨-, rfl⟩ | ⟨hopen, -⟩
      · rw [← h.size_eq, Array.getElem?_push_size] at hflag
        cases hflag
      · exact hopen (Or.inr hempty)
    exact ih (h.next hv hout hflag) (by rw [hsteps, List.append_cons]) (by simp [hk]) honward

theorem ofFlow_accounts (h : ofFlow g z threshold = .ok u) :
    u.Accounts g z threshold (.ofDropped g u.flags) g.size := by
  have hstart : start.Accounts g z threshold (.ofDropped g u.flags) 0 :=
    ⟨rfl, rfl, rfl, rfl, fun i hi => absurd hi (Nat.not_lt_zero i)⟩
  have hsteps : g.steps.toList = [] ++ g.steps.toList := rfl
  refine hstart.onward hsteps rfl h fun i => ?_
  rw [Plan.isDropped_ofDropped_iff]
  refine ⟨fun hdrop => hdrop.2, fun hdrops => ⟨?_, hdrops⟩⟩
  have hlt := (Array.getElem?_eq_some_iff.mp hdrops.2).1
  rwa [size_flags_ofFlow h] at hlt

end BlockWalk

/-- Every entry of a list is marked, or counted among those that are not. -/
theorem card_unmarked_add_countP {α : Type} (mark : α → Bool) (xs : List α) :
    ((Finset.range xs.length).filter fun j => (xs[j]?.map mark).getD false = false).card +
      xs.countP mark = xs.length := by
  rw [Finset.card_filter]
  induction xs with
  | nil => rfl
  | cons x xs ih =>
    rw [List.length_cons, Finset.sum_range_succ', List.countP_cons]
    simp only [List.getElem?_cons_succ, List.getElem?_cons_zero, Option.map_some, Option.getD_some]
    have hx : (if mark x = false then 1 else 0) + (if mark x = true then 1 else 0) = 1 := by
      cases mark x <;> rfl
    omega

theorem Plan.card_retained_add_numDropped (h : p.size = g.size) :
    (p.retained g).card + p.numDropped = g.size := by
  have hcount := card_unmarked_add_countP Decision.isRecompute p.decisions.toList
  simp only [Array.length_toList, Array.getElem?_toList, Array.countP_toList] at hcount
  rw [retained, ← h]
  exact hcount

namespace BlockPlan

/-- What is known of the plan for a threshold: it retains no more steps than its runs demand, and
its sizes are those of its blocks. -/
structure Frugal (g : Dataflow Op) (z : Sizing) (threshold : Nat) (m : BlockPlan) : Prop where
  threshold_eq : m.threshold = threshold
  plan_eq : m.plan = .ofDropped g m.plan.dropped
  keepsOutput : m.plan.KeepsOutput g
  runsWithin : m.plan.RunsWithin g z threshold
  fewest : ∀ p : Plan, p.KeepsOutput g → p.RunsWithin g z threshold →
    (m.plan.retained g).card ≤ (p.retained g).card
  /-- The retained steps end the blocks, which hold every step once. -/
  blocks : ∀ j < g.size, ∃! i, i ∈ m.plan.retained g ∧ j ∈ m.plan.blockAt i
  lt_load : ∀ i ∈ m.plan.retained g, g.output? ≠ some i → threshold < g.load z (m.plan.blockAt i)
  largest_eq : m.largest = (m.plan.retained g).sup fun i => g.load z (m.plan.blockAt i)
  saved_eq : m.saved = g.load z (m.plan.retained g)
  of_empty : g.size = 0 → m.largest = 0 ∧ m.saved = 0

theorem exists_make (hbytes : ∀ s ∈ g.steps, ∃ n, z.bytes s.shape = .ok n)
    (htotal : (g.volumes z).toList.sum < Word.limit) (threshold : Nat) :
    ∃ m, make g z threshold = .ok m := by
  obtain ⟨w, hw, -⟩ := (BlockWalk.ofFlow_completes threshold hbytes htotal).exists_ok
  exact ⟨_, bind_eq_ok_iff.mpr ⟨w, hw, rfl⟩⟩

theorem frugal_of_make {m : BlockPlan} (h : make g z threshold = .ok m) :
    m.Frugal g z threshold := by
  obtain ⟨w, hw, h⟩ := bind_eq_ok_iff.mp h
  obtain rfl := Except.ok.inj h
  have haccounts := BlockWalk.ofFlow_accounts hw
  have hfills := haccounts.fills
  have hout := Plan.keepsOutput_ofDropped g w.flags
  exact {
    threshold_eq := rfl
    plan_eq := (Plan.ofDropped_dropped g w.flags).symm
    keepsOutput := hout
    runsWithin := hfills.runsWithin (Plan.size_ofDropped g w.flags)
    fewest := fun p hkeeps hruns => hfills.card_retained_le hkeeps hruns
    blocks := fun j hj => Plan.existsUnique_blockAt hout hj
    lt_load := fun i hi hlast => hfills.lt_load hi hlast
    largest_eq := haccounts.largest_eq
    saved_eq := haccounts.saved_eq
    of_empty := fun hempty => by
      rw [haccounts.largest_eq, haccounts.saved_eq, hempty]
      exact ⟨rfl, rfl⟩ }

/-- More may be dropped under a higher threshold. -/
theorem Frugal.numDropped_le {low high : Nat} {m n : BlockPlan} (hm : m.Frugal g z low)
    (hn : n.Frugal g z high) (hle : low ≤ high) : m.plan.numDropped ≤ n.plan.numDropped := by
  have hfewer := hn.fewest m.plan hm.keepsOutput fun lo hi hrun =>
    Nat.le_trans (hm.runsWithin lo hi hrun) hle
  have hsize : ∀ p : Plan, p = .ofDropped g p.dropped → p.size = g.size := fun p hp => by
    rw [hp, Plan.size_ofDropped]
  have hleft := Plan.card_retained_add_numDropped (hsize _ hm.plan_eq)
  have hright := Plan.card_retained_add_numDropped (hsize _ hn.plan_eq)
  omega

/-- For every threshold there is the plan, and no plan whose runs are within the threshold retains
fewer steps. Where no size is zero, `htotal` alone makes the bytes of every step come out
(`Sizing.exists_bytes_of_pos`). -/
theorem make_frugal (g : Dataflow Op) (z : Sizing)
    (hbytes : ∀ s ∈ g.steps, ∃ n, z.bytes s.shape = .ok n)
    (htotal : (g.volumes z).toList.sum < Word.limit) :
    ∃ m : Nat → BlockPlan,
      (∀ threshold, make g z threshold = .ok (m threshold) ∧
        (m threshold).Frugal g z threshold) ∧
      Monotone fun threshold => (m threshold).plan.numDropped := by
  choose m hm using exists_make hbytes htotal
  have hfrugal := fun threshold => frugal_of_make (hm threshold)
  exact ⟨m, fun threshold => ⟨hm threshold, hfrugal threshold⟩,
    fun low high hle => (hfrugal low).numDropped_le (hfrugal high) hle⟩

theorem make_frugal_unevenChain : (⟨1, .u8⟩ : Sizing).Suits unevenChain ∧
    make unevenChain ⟨1, .u8⟩ 2 =
      .ok ⟨.ofDropped unevenChain #[true, false, true, false], 2, 3, 4⟩ ∧
    Frugal unevenChain ⟨1, .u8⟩ 2
      ⟨.ofDropped unevenChain #[true, false, true, false], 2, 3, 4⟩ := by
  have h : (⟨1, .u8⟩ : Sizing).Suits unevenChain :=
    Sizing.suits_of_pos (by decide +kernel) (by decide +kernel) (by decide +kernel)
  have hmake : make unevenChain ⟨1, .u8⟩ 2 =
      .ok ⟨.ofDropped unevenChain #[true, false, true, false], 2, 3, 4⟩ := by decide +kernel
  obtain ⟨m, hm, -⟩ := make_frugal unevenChain ⟨1, .u8⟩ h.bytes h.total_lt
  obtain ⟨hplan, hfrugal⟩ := hm 2
  rw [Except.ok.inj (hplan.symm.trans hmake)] at hfrugal
  exact ⟨h, hmake, hfrugal⟩

end BlockPlan

end AndOrFlow
