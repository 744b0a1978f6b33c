import AndOrFlow.Graph.Error
import AndOrFlow.Shape

/-!
# What can go wrong when a graph is compiled
-/
namespace AndOrFlow

inductive CompileError where
  /-- An edge leads to a node that is not there. -/
  | unresolved (node child : NodeId)
  /-- The operands of a node do not fit together, or do not fit its operator. -/
  | shapeMismatch (node : NodeId) (span : Span) (expected actual : Shape)
  | invalidInput (shape : Shape) (axis : Nat)
  /-- The operator factory refused a node. -/
  | operator (node : NodeId) (reason : String)
  /-- A step reads a value that is not computed before it. -/
  | outOfOrder (step input : Nat)
  | graph (source : GraphError)
  deriving DecidableEq

def CompileError.message : CompileError → String
  | .unresolved node child => s!"node {node.text} references unresolved node {child.text}"
  | .shapeMismatch node span expected actual =>
    s!"shape mismatch at node {node.text} over {span.text}: expected {expected.text}, " ++
      s!"got {actual.text}"
  | .invalidInput shape axis => s!"input shape {shape.text} has no feature axis {axis}"
  | .operator node reason => s!"operator factory failed at node {node.text}: {reason}"
  | .outOfOrder step input =>
    s!"computation node {step} reads node {input}, which does not precede it"
  | .graph _ => "invalid AOG"

end AndOrFlow
