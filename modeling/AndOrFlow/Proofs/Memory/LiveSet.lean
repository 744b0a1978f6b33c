import Mathlib.Algebra.BigOperators.Group.Finset.Basic
import AndOrFlow.Memory.Workload

/-!
# The live set

A memory stands for the set of outputs that it holds; its total is their bytes. Every operation that
succeeds changes that set in the one way that its name says. The specifications here say nothing of
faults.
-/
namespace AndOrFlow

namespace Memory

variable {bytes : Array Nat} {m n : Memory} {live : Finset Nat} {i j : Nat}

/-- The memory holds exactly the outputs in `live`, and counts their bytes. -/
structure Stands (bytes : Array Nat) (m : Memory) (live : Finset Nat) : Prop where
  size_eq : m.live.size = bytes.size
  holds_iff : ∀ j, m.Holds j ↔ j ∈ live
  total_eq : m.total = ∑ j ∈ live, bytes.getD j 0

theorem stands_empty (bytes : Array Nat) : (empty bytes.size).Stands bytes ∅ := by
  refine ⟨by simp [empty], fun j => ?_, by simp [empty]⟩
  simp [Holds, empty, Array.getElem?_replicate]

/-- Peak and cost do not matter. -/
theorem Stands.of_eq (h : m.Stands bytes live) (hlive : n.live = m.live)
    (htotal : n.total = m.total) : n.Stands bytes live :=
  ⟨hlive ▸ h.size_eq, fun j => by rw [Holds, hlive]; exact h.holds_iff j, htotal.trans h.total_eq⟩

theorem Stands.alloc (h : m.Stands bytes live) (hi : i < bytes.size)
    (hn : m.alloc bytes i = .ok n) : n.Stands bytes (insert i live) ∧ n.cost = m.cost := by
  by_cases hheld : m.Holds i
  · rw [Memory.alloc, if_pos hheld] at hn
    obtain rfl := Except.ok.inj hn
    have hmem := (h.holds_iff i).mp hheld
    rw [Finset.insert_eq_of_mem hmem]
    exact ⟨h, rfl⟩
  · rw [Memory.alloc, if_neg hheld] at hn
    obtain ⟨total, htotal, hn⟩ := bind_eq_ok_iff.mp hn
    obtain rfl := Except.ok.inj hn
    obtain ⟨hsum, -⟩ := Word.add_eq_ok_iff.mp htotal
    have hmem : i ∉ live := fun hmem => hheld ((h.holds_iff i).mpr hmem)
    refine ⟨⟨?_, fun j => ?_, ?_⟩, rfl⟩
    · simpa using h.size_eq
    · have hj := h.holds_iff j
      simp only [Holds] at hj
      rw [Finset.mem_insert, ← hj, Holds, Array.getElem?_setIfInBounds]
      by_cases hij : i = j
      · subst hij
        simp [h.size_eq, hi]
      · simp [hij, Ne.symm hij]
    · rw [Finset.sum_insert hmem, ← hsum, h.total_eq, Nat.add_comm]

theorem Stands.free (h : m.Stands bytes live) (hn : m.free bytes i = .ok n) :
    n.Stands bytes (live.erase i) ∧ n.cost = m.cost := by
  by_cases hheld : m.Holds i
  · rw [Memory.free, if_pos hheld] at hn
    obtain ⟨total, htotal, hn⟩ := bind_eq_ok_iff.mp hn
    obtain rfl := Except.ok.inj hn
    obtain ⟨-, hdiff⟩ := Word.sub_eq_ok_iff.mp htotal
    have hmem := (h.holds_iff i).mp hheld
    refine ⟨⟨?_, fun j => ?_, ?_⟩, rfl⟩
    · simpa using h.size_eq
    · have hj := h.holds_iff j
      simp only [Holds] at hj
      rw [Finset.mem_erase, ← hj, Holds, Array.getElem?_setIfInBounds]
      by_cases hij : i = j
      · subst hij
        simp
      · simp [hij, Ne.symm hij]
    · have hsplit := Finset.sum_erase_add live (fun j => bytes.getD j 0) hmem
      have hall := h.total_eq
      simp only at hsplit ⊢
      omega
  · rw [Memory.free, if_neg hheld] at hn
    obtain rfl := Except.ok.inj hn
    have hmem : i ∉ live := fun hmem => hheld ((h.holds_iff i).mpr hmem)
    rw [Finset.erase_eq_of_notMem hmem]
    exact ⟨h, rfl⟩

end Memory
end AndOrFlow
