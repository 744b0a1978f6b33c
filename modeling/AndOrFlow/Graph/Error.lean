import AndOrFlow.Bounds
import AndOrFlow.Node

/-!
# What can be wrong with an AND-OR graph
-/
namespace AndOrFlow

inductive GraphError where
  /-- The size bounds contradict each other. -/
  | invalidBounds (dim minSize maxSize : Nat) (defect : Bounds.Defect)
  /-- The span has no decomposition under the size bounds. -/
  | undecomposable (span : Span)
  | empty
  /-- The node refers to one that is not there. -/
  | dangling (node child : NodeId)
  /-- The children of an and-node leave a gap or overlap at a position of its span. -/
  | tiling (node : NodeId) (span : Span) (position : Nat)
  /-- An alternative of an or-node is an or-node itself or covers another span. -/
  | invalidAlternative (node alternative : NodeId)
  | tooFewChildren (node : NodeId) (count least : Nat)
  /-- A terminal's length is not admissible. -/
  | terminalLength (node : NodeId) (length minSize maxSize : Nat)
  /-- The root does not cover the domain. -/
  | rootSpan (span : Span) (dim : Nat)
  | cycle (node : NodeId)
  deriving DecidableEq

def GraphError.message : GraphError → String
  | .invalidBounds dim minSize maxSize defect =>
    s!"invalid configuration (dim={dim}, min_size={minSize}, tnode_max_size={maxSize}): " ++
      defect.reason
  | .undecomposable span =>
    s!"range {span.text} admits no decomposition under the configured size bounds"
  | .empty => "graph has no nodes"
  | .dangling node child => s!"node {node.text} references missing child {child.text}"
  | .tiling node span position =>
    s!"node {node.text} children do not tile {span.text}: gap or overlap at {position}"
  | .invalidAlternative node alternative =>
    s!"node {node.text} has invalid alternative {alternative.text}"
  | .tooFewChildren node count least =>
    s!"node {node.text} has too few children: {count} < {least}"
  | .terminalLength node length minSize maxSize =>
    s!"terminal {node.text} has length {length} outside [{minSize}, {maxSize}]"
  | .rootSpan span dim => s!"root covers {span.text} instead of [0, {dim})"
  | .cycle node => s!"cycle detected through node {node.text}"

end AndOrFlow
