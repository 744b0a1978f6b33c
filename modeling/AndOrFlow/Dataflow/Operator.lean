import AndOrFlow.Dataflow.Error
import AndOrFlow.Failure

/-!
# Operators

What the compiler asks of an operator factory, and what it gets back. The compiler computes nothing
itself: an operator is an opaque handle, known by the shape that it produces and by its cost.
-/
namespace AndOrFlow

/-- What a factory is told about the node that it binds. -/
structure Request where
  node : NodeId
  kind : Kind
  span : Span
  /-- Size of the domain that the span lies in. -/
  dim : Nat
  /-- The axis that spans index and and-nodes concatenate along. -/
  axis : Nat
  /-- The operand shapes in order: the graph input for a terminal, the sources for the others. -/
  inputs : List Shape
  deriving DecidableEq

/-- A bound operator. -/
structure Binding (Op : Type) where
  op : Op
  shape : Shape
  /-- Number of learnable parameters. -/
  params : Nat
  /-- Cost of running the operator once. -/
  cost : Nat
  deriving DecidableEq

/-- A factory is a function of the request. -/
abbrev Factory (Op : Type) := Request → Except (Failure CompileError) (Binding Op)

end AndOrFlow
