import Mathlib.Algebra.Order.BigOperators.GroupWithZero.List
import Mathlib.Algebra.Order.Ring.Nat
import AndOrFlow.Proofs.Memory.Readers
import AndOrFlow.Proofs.Outcome

/-!
# Bytes as numbers

The bytes of an output are the product of its sizes, with the batch in place of the first, and the
width of an element. Computed in words this is the same number, unless a product on the way there
is no word; and that cannot be where no size is zero and the number itself is a word.
-/
namespace AndOrFlow

namespace Word

variable {xs : List Nat} {a n : Nat}

theorem foldlM_mul_eq_ok (h : xs.foldlM mul a = .ok n) : a * xs.prod = n := by
  induction xs generalizing a with
  | nil =>
    obtain rfl : a = n := Except.ok.inj h
    simp
  | cons x xs ih =>
    rw [List.foldlM_cons] at h
    obtain ⟨b, hb, h⟩ := bind_eq_ok_iff.mp h
    obtain ⟨hmul, -⟩ := mul_eq_ok_iff.mp hb
    rw [List.prod_cons, ← Nat.mul_assoc, hmul]
    exact ih h

theorem foldlM_mul_of_pos (hpos : ∀ x ∈ xs, 0 < x) (h : a * xs.prod < limit) :
    xs.foldlM mul a = .ok (a * xs.prod) := by
  induction xs generalizing a with
  | nil => simp [pure, Except.pure]
  | cons x xs ih =>
    have hrest : ∀ y ∈ xs, 0 < y := fun y hy => hpos y (List.mem_cons_of_mem _ hy)
    rw [List.prod_cons, ← Nat.mul_assoc] at h ⊢
    -- Every partial product is a divisor of the whole one.
    have hone : 0 < xs.prod := List.prod_pos hrest
    have hpart : a * x < limit := Nat.lt_of_le_of_lt (Nat.le_mul_of_pos_right _ hone) h
    rw [List.foldlM_cons]
    exact bind_eq_ok_iff.mpr ⟨a * x, mul_eq_ok_iff.mpr ⟨rfl, hpart⟩, ih hrest h⟩

end Word

namespace Sizing

variable {z : Sizing} {s : Shape} {n : Nat}

/-- The bytes of a buffer as a number of any size. -/
def volume (z : Sizing) (s : Shape) : Nat := (s.withDim 0 z.batch).dims.prod * z.element.width

theorem volume_of_bytes (h : z.bytes s = .ok n) : z.volume s = n := by
  obtain ⟨count, hcount, hbytes⟩ := bind_eq_ok_iff.mp h
  have hprod := Word.foldlM_mul_eq_ok hcount
  rw [Nat.one_mul] at hprod
  rw [volume, hprod]
  exact (Word.mul_eq_ok_iff.mp hbytes).1

theorem exists_bytes_iff (hpos : ∀ d ∈ (s.withDim 0 z.batch).dims, 0 < d) :
    (∃ n, z.bytes s = .ok n) ↔ z.volume s < Word.limit := by
  constructor
  · rintro ⟨n, h⟩
    rw [volume_of_bytes h]
    obtain ⟨count, -, hbytes⟩ := bind_eq_ok_iff.mp h
    exact (Word.mul_eq_ok_iff.mp hbytes).2
  · intro h
    have hcount : (s.withDim 0 z.batch).dims.prod < Word.limit :=
      Nat.lt_of_le_of_lt (Nat.le_mul_of_pos_right _ z.element.width_pos) h
    have hproduct := Word.foldlM_mul_of_pos (a := 1) hpos (by rwa [Nat.one_mul])
    rw [Nat.one_mul] at hproduct
    exact ⟨_, bind_eq_ok_iff.mpr ⟨_, hproduct, Word.mul_eq_ok_iff.mpr ⟨rfl, h⟩⟩⟩

end Sizing

variable {Op : Type} {g : Dataflow Op} {z : Sizing}

def Dataflow.volumes (g : Dataflow Op) (z : Sizing) : Array Nat :=
  g.steps.map fun s => z.volume s.shape

theorem Workload.exists_bytes {w : Workload} (h : Workload.ofFlow g z = .ok w) :
    ∀ s ∈ g.steps, ∃ n, z.bytes s.shape = .ok n :=
  fun s hs => exists_of_mapM_eq_ok (mapM_bytes h) s (Array.mem_toList_iff.mpr hs)

theorem Workload.exists_ofFlow (h : ∀ s ∈ g.steps, ∃ n, z.bytes s.shape = .ok n) :
    ∃ w, Workload.ofFlow g z = .ok w ∧ w.bytes = g.volumes z := by
  have hlist : g.steps.toList.mapM (fun s => z.bytes s.shape) = .ok (g.volumes z).toList := by
    rw [Dataflow.volumes, Array.toList_map]
    refine mapM_eq_ok fun s hs => ?_
    obtain ⟨n, hn⟩ := h s (Array.mem_toList_iff.mp hs)
    rw [hn, Sizing.volume_of_bytes hn]
  have harray : g.steps.mapM (fun s => z.bytes s.shape) = .ok (g.volumes z) := by
    rw [Array.mapM_eq_mapM_toList, hlist]
    rfl
  exact ⟨_, bind_eq_ok_iff.mpr ⟨_, harray, rfl⟩, rfl⟩

end AndOrFlow
