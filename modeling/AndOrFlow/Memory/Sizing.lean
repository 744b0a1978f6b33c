import AndOrFlow.Element
import AndOrFlow.Memory.Error
import AndOrFlow.Shape

/-!
# Sizes of buffers

A compiled shape holds the batch that the graph was compiled for on its first axis. A sizing puts
another batch in its place, so one compiled graph can be planned for many batches.
-/
namespace AndOrFlow

structure Sizing where
  batch : Nat
  element : Element
  deriving DecidableEq

namespace Sizing

def make (batch : Nat) (element : Element) : Except PlanError Sizing :=
  if batch = 0 then .error (.invalidSizing .noBatch) else .ok ⟨batch, element⟩

/-- The sizing for the elements of a host program's scalar type. -/
def ofScalar (s : Scalar) (batch : Nat) : Except PlanError Sizing := make batch s.element

/-- Takes the batch from the first axis of an input shape. -/
def ofInput (input : Shape) (element : Element) : Except PlanError Sizing :=
  match input.dim? 0 with
  | some batch => make batch element
  | none => .error (.invalidSizing .noBatchAxis)

/-- Bytes of one buffer. -/
def bytes (z : Sizing) (s : Shape) : Checked Nat := do
  let count ← (s.withDim 0 z.batch).count
  z.element.sizeOf count

end Sizing
end AndOrFlow
