/-!
# What can go wrong when memory is planned
-/
namespace AndOrFlow

/-- Why a batch and an element type do not size buffers. -/
inductive SizingDefect where
  | noBatch
  | noBatchAxis
  deriving DecidableEq

def SizingDefect.reason : SizingDefect → String
  | .noBatch => "batch must be positive"
  | .noBatchAxis => "input has no batch axis"

inductive PlanError where
  /-- No plan within the recompute budget meets the memory limit. `leastBudget` is the least
  recompute cost of the evaluated plans that meet it, if any does. -/
  | infeasible (maxCost : Nat) (memoryLimit : Option Nat) (bestPeak : Nat)
      (leastBudget : Option Nat)
  | invalidSizing (defect : SizingDefect)
  /-- A plan was applied to a graph that it was not made for. -/
  | mismatch (expected actual : Nat)
  deriving DecidableEq

def PlanError.message : PlanError → String
  | .infeasible maxCost memoryLimit bestPeak leastBudget =>
    let limit := match memoryLimit with
      | some bytes => s!"{bytes} bytes"
      | none => "none"
    let least := match leastBudget with
      | some cost => s!"{cost}"
      | none => "unknown"
    s!"no plan within recompute budget {maxCost} reaches memory limit {limit}: " ++
      s!"best peak {bestPeak} bytes, minimal feasible budget {least}"
  | .invalidSizing defect => s!"invalid execution shape: {defect.reason}"
  | .mismatch expected actual => s!"plan covers {actual} nodes, graph has {expected}"

end AndOrFlow
