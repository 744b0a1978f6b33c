import AndOrFlow.Memory.Blocks
import Mathlib.Algebra.Order.Ring.Nat
import Mathlib.Tactic.Ring

/-!
# Thresholds stay words

A number of at most 53 binary digits, however far shifted to the left, is an upper bound that
rounding does not exceed. So a threshold that is guessed from two words is well below the largest
word.
-/
namespace AndOrFlow

namespace Rounding

variable {n m j e k : Nat}

theorem shift_le (h : n ≤ m * 2 ^ e) : shift n e ≤ m := by
  have hpos : 0 < 2 ^ e := Nat.two_pow_pos e
  have hquotient : n / 2 ^ e ≤ m := Nat.div_le_of_le_mul (by rwa [Nat.mul_comm] at h)
  rw [shift, Nat.shiftRight_eq_div_pow, Nat.shiftLeft_eq, Nat.shiftLeft_eq, Nat.one_mul]
  split
  · rename_i hup
    -- What is rounded up has a rest, so the quotient is below the bound.
    have hrest : 0 < n - n / 2 ^ e * 2 ^ e := by omega
    have hlt : n / 2 ^ e * 2 ^ e < m * 2 ^ e := by omega
    exact Nat.lt_of_mul_lt_mul_right hlt
  · exact hquotient

/-- Rounding to 53 digits does not exceed a bound that has no more digits. -/
theorem significant_le (hm : m < 2 ^ 53) (h : n ≤ m * 2 ^ j) : significant n ≤ m * 2 ^ j := by
  obtain ⟨e, he⟩ : ∃ e, n.log2 + 1 - 53 = e := ⟨_, rfl⟩
  rw [significant, he, Nat.shiftLeft_eq]
  rcases Nat.lt_or_ge j e with hlt | hle
  · -- More digits are cut off than the bound has zeros, so the number has more digits than it.
    have hn : n ≠ 0 := by
      rintro rfl
      simp at he
      omega
    have hlow := Nat.log2_self_le hn
    have hdigits : 2 ^ (53 + j) ≤ 2 ^ n.log2 := Nat.pow_le_pow_right (by decide) (by omega)
    have hbound : m * 2 ^ j < 2 ^ 53 * 2 ^ j := Nat.mul_lt_mul_of_pos_right hm (Nat.two_pow_pos j)
    rw [← Nat.pow_add] at hbound
    omega
  · have hsplit : m * 2 ^ j = m * 2 ^ (j - e) * 2 ^ e := by
      rw [Nat.mul_assoc, ← Nat.pow_add, Nat.sub_add_cancel hle]
    rw [hsplit] at h ⊢
    exact Nat.mul_le_mul_right _ (shift_le h)

theorem significant_le_two_pow (h : n ≤ 2 ^ j) : significant n ≤ 2 ^ j := by
  rw [← Nat.one_mul (2 ^ j)] at h ⊢
  exact significant_le (by decide) h

theorem rootFrom_sq_le {root : Nat} (h : root * root ≤ n) :
    rootFrom k n root * rootFrom k n root ≤ n := by
  induction k generalizing root with
  | zero => exact h
  | succ k ih =>
    rw [rootFrom]
    split
    · rename_i hlarger
      exact ih hlarger
    · exact ih h

theorem rootOfHalf_le (h : n ≤ 2 ^ 128) : rootOfHalf n ≤ 3 * 2 ^ 62 := by
  have hsquare : root (n <<< 127) * root (n <<< 127) ≤ n <<< 127 := rootFrom_sq_le (Nat.zero_le _)
  have hscaled : n <<< 127 ≤ 2 ^ 255 := by
    rw [Nat.shiftLeft_eq]
    omega
  have hroot : root (n <<< 127) < 3 * 2 ^ 126 := by
    refine Nat.lt_of_not_le fun hle => ?_
    have hlarge := Nat.mul_le_mul hle hle
    omega
  rw [rootOfHalf, Nat.shiftRight_eq_div_pow]
  have hdigits : significant (2 * root (n <<< 127) +
      if root (n <<< 127) * root (n <<< 127) = n <<< 127 then 0 else 1) ≤ 3 * 2 ^ 127 := by
    apply significant_le (by decide)
    split <;> omega
  omega

end Rounding

/-- A threshold guessed from two words is at most three quarters of the limit of words. -/
theorem nextThreshold_le {largest saved : Nat} (hlargest : largest ≤ 2 ^ 64)
    (hsaved : saved ≤ 2 ^ 64) : nextThreshold largest saved ≤ 3 * 2 ^ 62 := by
  have hproduct := Nat.mul_le_mul (Rounding.significant_le_two_pow hsaved)
    (Rounding.significant_le_two_pow hlargest)
  rw [← Nat.pow_add] at hproduct
  exact Rounding.rootOfHalf_le (Rounding.significant_le_two_pow hproduct)

end AndOrFlow
