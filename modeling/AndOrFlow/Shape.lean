import AndOrFlow.Word

/-!
# Tensor shapes

A shape lists the size of every axis, outermost first. Axes are numbered from zero; what asks for an
axis that is not there gets no size, and changes nothing.
-/
namespace AndOrFlow

structure Shape where
  dims : List Nat
  deriving DecidableEq

namespace Shape

/-- The shape of a single number. -/
def scalar : Shape := ⟨[]⟩

def rank (s : Shape) : Nat := s.dims.length

def dim? (s : Shape) (axis : Nat) : Option Nat := s.dims[axis]?

/-- Number of elements. -/
def count (s : Shape) : Checked Nat := Word.product s.dims

/-- The shape with one axis resized. -/
def withDim (s : Shape) (axis size : Nat) : Shape := ⟨s.dims.set axis size⟩

/-- Both shapes have the same axes, and the same size on all of them but `axis`. -/
def MatchesExcept (s t : Shape) (axis : Nat) : Prop :=
  s.rank = t.rank ∧ ∀ i < s.rank, i = axis ∨ s.dim? i = t.dim? i

instance (s t : Shape) (axis : Nat) : Decidable (s.MatchesExcept t axis) :=
  inferInstanceAs (Decidable (_ ∧ _))

def text (s : Shape) : String := "[" ++ ", ".intercalate (s.dims.map toString) ++ "]"

@[simp] theorem rank_withDim (s : Shape) (axis size : Nat) :
    (s.withDim axis size).rank = s.rank := by
  simp [rank, withDim]

theorem dim?_withDim_self {s : Shape} {axis size : Nat} (h : axis < s.rank) :
    (s.withDim axis size).dim? axis = some size := by
  simp only [rank] at h
  simp [dim?, withDim, h]

theorem withDim_withDim (s : Shape) (axis first second : Nat) :
    (s.withDim axis first).withDim axis second = s.withDim axis second := by
  simp [withDim]

theorem withDim_self {s : Shape} {axis size : Nat} (h : s.dim? axis = some size) :
    s.withDim axis size = s := by
  obtain ⟨bound, rfl⟩ := List.getElem?_eq_some_iff.mp h
  simp [withDim]

end Shape
end AndOrFlow
