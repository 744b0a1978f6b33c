import AndOrFlow.Memory.Plan
import AndOrFlow.Memory.Sizing

/-!
# Candidates for dropping

The outputs that a plan retains, ordered by what dropping one saves for each unit of its cost.
Ratios are compared exactly, by cross products.
-/
namespace AndOrFlow

/-- An output that may still be dropped. -/
structure Candidate where
  bytes : Nat
  cost : Nat
  step : Nat
  deriving DecidableEq

namespace Candidate

/-- Compares bytes per cost, where every cost counts one more than it is, by cross products. -/
def compareRatio (a b : Candidate) : Ordering :=
  compare (a.bytes * (b.cost + 1)) (b.bytes * (a.cost + 1))

/-- Decreasing bytes per cost, equal ones in execution order. -/
def before (a b : Candidate) : Bool :=
  ((compareRatio b a).then (compare a.step b.step)).isLE

end Candidate

variable {Op : Type}

/-- The outputs not flagged yet, but for the graph output, in the order to drop them. -/
def candidates (g : Dataflow Op) (z : Sizing) (flags : DropFlags) : Checked (List Candidate) := do
  let retained := g.steps.toList.zipIdx.filter fun (_, i) =>
    flags[i]? ≠ some true ∧ g.output? ≠ some i
  let found ← retained.mapM fun (step, i) => do
    return (⟨← z.bytes step.shape, step.cost, i⟩ : Candidate)
  return Sorting.sort Candidate.before found

end AndOrFlow
