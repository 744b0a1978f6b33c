/-!
# Size bounds

What a decomposition of `[0, dim)` may look like: which lengths a leaf may have, and whether a leaf
of length one stands alone or under a choice of its own.
-/
namespace AndOrFlow

structure Bounds where
  /-- The domain is `[0, dim)`. -/
  dim : Nat
  /-- Least length of a leaf. -/
  minSize : Nat := 1
  /-- Greatest length of a leaf. -/
  maxSize : Nat := dim
  /-- A leaf of length one needs no choice node above it. -/
  bareUnits : Bool := true
  /-- Cuts may be explored by several workers; no result depends on it. -/
  parallel : Bool := false
  deriving DecidableEq

namespace Bounds

/-- What is wrong with bounds that admit no decomposition by themselves. -/
inductive Defect where
  | zeroMinimum
  | dimBelowMinimum
  | maximumBelowMinimum
  deriving DecidableEq

def Defect.reason : Defect → String
  | .zeroMinimum => "min_size must be positive"
  | .dimBelowMinimum => "dim must be at least min_size"
  | .maximumBelowMinimum => "tnode_max_size must be at least min_size"

/-- The first defect, if there is one. -/
def defect? (b : Bounds) : Option Defect :=
  if b.minSize = 0 then some .zeroMinimum
  else if b.dim < b.minSize then some .dimBelowMinimum
  else if b.maxSize < b.minSize then some .maximumBelowMinimum
  else none

/-- Whether a leaf may have this length. -/
def Admits (b : Bounds) (length : Nat) : Prop := b.minSize ≤ length ∧ length ≤ b.maxSize

instance (b : Bounds) (length : Nat) : Decidable (b.Admits length) :=
  inferInstanceAs (Decidable (_ ∧ _))

theorem defect?_eq_none_iff {b : Bounds} :
    b.defect? = none ↔ 1 ≤ b.minSize ∧ b.minSize ≤ b.dim ∧ b.minSize ≤ b.maxSize := by
  unfold defect?; repeat' split
  all_goals simp; try omega

end Bounds
end AndOrFlow
