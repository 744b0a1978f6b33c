import AndOrFlow.Word
import Std.Data.ExtTreeMap

/-!
# Spans

Half-open intervals `[lo, hi)` of positions. Spans that come from outside may be empty or inverted;
`Span.Proper` singles out the others, and an operation that needs a proper span faults on the rest.
-/
namespace AndOrFlow

@[ext] structure Span where
  lo : Nat
  hi : Nat
  deriving DecidableEq

namespace Span

def Proper (s : Span) : Prop := s.lo < s.hi

instance (s : Span) : Decidable s.Proper := inferInstanceAs (Decidable (s.lo < s.hi))

/-- The proper span between two positions. -/
def make (lo hi : Nat) : Checked Span := if lo < hi then .ok ⟨lo, hi⟩ else .error .emptySpan

/-- Positions in the span; none if it is inverted. -/
def width (s : Span) : Nat := s.hi - s.lo

/-- The width of a span that is not inverted. -/
def length (s : Span) : Checked Nat := Word.sub s.hi s.lo

def isEmpty (s : Span) : Bool := s.hi ≤ s.lo

def isUnit (s : Span) : Checked Bool := do return (← s.length) == 1

/-- The positions that cut a span in two proper parts, left to right. -/
def cuts (s : Span) : List Nat := List.range' (s.lo + 1) (s.width - 1)

/-- The half-open range of the cuts; its start has to be a word. -/
def cutRange (s : Span) : Checked (Nat × Nat) := do return (← Word.add s.lo 1, s.hi)

def splitAt? (s : Span) (k : Nat) : Option (Span × Span) :=
  if s.lo < k ∧ k < s.hi then some (⟨s.lo, k⟩, ⟨k, s.hi⟩) else none

/-- By the lower end, then by the upper. -/
instance : Ord Span where
  compare a b := (compare a.lo b.lo).then (compare a.hi b.hi)

instance : Std.TransOrd Span :=
  inferInstanceAs (Std.TransCmp (compareLex (compareOn Span.lo) (compareOn Span.hi)))

instance : Std.LawfulEqOrd Span where
  compare_self {a} := by
    show (compare a.lo a.lo).then (compare a.hi a.hi) = .eq
    simp
  eq_of_compare {a b} h := by
    have h : (compare a.lo b.lo).then (compare a.hi b.hi) = .eq := h
    simp only [Ordering.then_eq_eq, Std.compare_eq_iff_eq] at h
    cases a; cases b; simp_all

def text (s : Span) : String := s!"[{s.lo}, {s.hi})"

theorem mem_cuts {s : Span} {k : Nat} : k ∈ s.cuts ↔ s.lo < k ∧ k < s.hi := by
  simp only [cuts, width, List.mem_range'_1]; omega

theorem width_left_lt {s : Span} {k : Nat} (h : s.lo < k ∧ k < s.hi) :
    (⟨s.lo, k⟩ : Span).width < s.width := by
  simp only [width]
  omega

theorem width_right_lt {s : Span} {k : Nat} (h : s.lo < k ∧ k < s.hi) :
    (⟨k, s.hi⟩ : Span).width < s.width := by
  simp only [width]
  omega

theorem length_eq_ok_iff {s : Span} {n : Nat} : s.length = .ok n ↔ s.lo ≤ s.hi ∧ s.width = n := by
  simp [length, width, Word.sub_eq_ok_iff]

theorem length_eq_fault_iff {s : Span} {f : Fault} :
    s.length = .error f ↔ f = .subtraction ∧ s.hi < s.lo := by
  rw [length, Word.sub]
  split <;> simp <;> grind

end Span
end AndOrFlow
