import AndOrFlow.Bounds
import Mathlib.Tactic.Linarith
import Mathlib.Tactic.Ring

/-!
# Lengths that leaves can fill

A length is tilable when it is a sum of admissible leaf lengths. As these form an interval, that is
a matter of the number of leaves alone. Tilable lengths add up, and one that is not admissible
itself is the sum of two smaller ones: the arithmetic behind resolving a span by its cuts.
-/
namespace AndOrFlow.Bounds
variable {b : Bounds} {m n : Nat}

/-- Some positive number of leaves fills the length. -/
def Tilable (b : Bounds) (length : Nat) : Prop :=
  ∃ m, 1 ≤ m ∧ m * b.minSize ≤ length ∧ length ≤ m * b.maxSize

/-- Some number of leaves, possibly none, fills the length. -/
def Fillable (b : Bounds) (length : Nat) : Prop := length = 0 ∨ b.Tilable length

theorem Tilable.of_admits (h : b.Admits n) : b.Tilable n :=
  ⟨1, le_rfl, by simpa using h.1, by simpa using h.2⟩

theorem Tilable.add (hm : b.Tilable m) (hn : b.Tilable n) : b.Tilable (m + n) := by
  obtain ⟨i, hi, hmin, hmax⟩ := hm
  obtain ⟨j, hj, hmin', hmax'⟩ := hn
  refine ⟨i + j, by omega, ?_, ?_⟩
  · rw [Nat.add_mul]
    exact Nat.add_le_add hmin hmin'
  · rw [Nat.add_mul]
    exact Nat.add_le_add hmax hmax'

theorem Fillable.add_tilable (hm : b.Fillable m) (hn : b.Tilable n) : b.Tilable (m + n) := by
  rcases hm with rfl | hm
  · simpa using hn
  · exact hm.add hn

theorem Tilable.add_fillable (hm : b.Tilable m) (hn : b.Fillable n) : b.Tilable (m + n) := by
  rw [Nat.add_comm]
  exact hn.add_tilable hm

theorem Tilable.fillable (h : b.Tilable n) : b.Fillable n := Or.inr h

theorem Tilable.pos (hb : 1 ≤ b.minSize) (h : b.Tilable n) : 0 < n := by
  obtain ⟨m, hm, hmin, -⟩ := h
  nlinarith

theorem Tilable.minSize_le_maxSize (h : b.Tilable n) : b.minSize ≤ b.maxSize := by
  obtain ⟨m, hm, hmin, hmax⟩ := h
  exact Nat.le_of_mul_le_mul_left (hmin.trans hmax) hm

/-- Cuts off one leaf, as short as what remains allows. -/
theorem Tilable.exists_cut (h : b.Tilable n) (hn : ¬ b.Admits n) (hpos : 0 < n) :
    ∃ k, 0 < k ∧ k < n ∧ b.Admits k ∧ b.Tilable (n - k) := by
  have hb := h.minSize_le_maxSize
  obtain ⟨m, hm, hmin, hmax⟩ := h
  obtain ⟨i, rfl⟩ : ∃ i, m = i + 1 := ⟨m - 1, by omega⟩
  rw [Nat.add_mul, Nat.one_mul] at hmin hmax
  have hi : 1 ≤ i := by
    by_contra hi
    obtain rfl : i = 0 := by omega
    exact hn ⟨by omega, by omega⟩
  have hmul : i * b.minSize ≤ i * b.maxSize := Nat.mul_le_mul_left i hb
  have hpart : b.maxSize ≤ i * b.maxSize := Nat.le_mul_of_pos_left _ hi
  have hpart' : b.minSize ≤ i * b.minSize := Nat.le_mul_of_pos_left _ hi
  have hzero : b.minSize = 0 → i * b.minSize = 0 := fun h => by rw [h, Nat.mul_zero]
  have hmax0 : 0 < b.maxSize := by
    by_contra h
    rw [Nat.eq_zero_of_not_pos h, Nat.mul_zero] at hmax
    omega
  have hlong : b.maxSize < n := by
    by_contra hlong
    exact hn ⟨by omega, by omega⟩
  obtain ⟨k, hk⟩ : ∃ k, k = max (max b.minSize 1) (n - i * b.maxSize) := ⟨_, rfl⟩
  have hle : k ≤ b.maxSize := by omega
  refine ⟨k, by omega, by omega, ⟨by omega, hle⟩, i, hi, ?_, by omega⟩
  rcases Nat.eq_zero_or_pos b.minSize with h | h
  · omega
  · omega

/-- A length is filled by one leaf, or by two parts that can be filled. -/
theorem tilable_iff (hpos : 0 < n) :
    b.Tilable n ↔ b.Admits n ∨ ∃ k, 0 < k ∧ k < n ∧ b.Tilable k ∧ b.Tilable (n - k) := by
  constructor
  · intro h
    by_cases hn : b.Admits n
    · exact Or.inl hn
    · obtain ⟨k, hk, hkn, hleaf, hrest⟩ := h.exists_cut hn hpos
      exact Or.inr ⟨k, hk, hkn, .of_admits hleaf, hrest⟩
  · rintro (h | ⟨k, -, hkn, hk, hrest⟩)
    · exact .of_admits h
    · simpa [Nat.add_sub_cancel' hkn.le] using hk.add hrest

/-- More leaves than positions are needed only if leaves may be empty. -/
theorem tilable_iff_bounded :
    b.Tilable n ↔ ∃ m ∈ List.range' 1 (n + 1), m * b.minSize ≤ n ∧ n ≤ m * b.maxSize := by
  constructor
  · rintro ⟨m, hm, hmin, hmax⟩
    rcases Nat.lt_or_ge (n + 1) m with h | h
    · have hb : b.minSize = 0 := by
        by_contra hb
        have : m ≤ m * b.minSize := Nat.le_mul_of_pos_right m (by omega)
        omega
      refine ⟨n + 1, by simp, by simp [hb], ?_⟩
      rcases Nat.eq_zero_or_pos b.maxSize with h0 | h0
      · simp [h0] at hmax
        omega
      · have : n + 1 ≤ (n + 1) * b.maxSize := Nat.le_mul_of_pos_right _ h0
        omega
    · exact ⟨m, by simp; omega, hmin, hmax⟩
  · rintro ⟨m, hm, hmin, hmax⟩
    rw [List.mem_range'_1] at hm
    exact ⟨m, hm.1, hmin, hmax⟩

instance (length : Nat) : Decidable (b.Tilable length) :=
  decidable_of_iff _ tilable_iff_bounded.symm

end AndOrFlow.Bounds
