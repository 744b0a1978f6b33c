import AndOrFlow.Failure
import AndOrFlow.Graph.PostOrder

/-!
# Well-formed graphs

`Graph.validate` accepts a graph whose root reaches no dangling reference and no cycle and covers
the domain, and in which every stored node, reachable or not, keeps the rule of its kind: a terminal
has an admissible length, the children of an and-node tile its span from left to right, and every
alternative of an or-node is a terminal or an and-node over the same span.
-/
namespace AndOrFlow.Graph

open Failure (demand raise)

/-- The children tile what is left of the span from `position` on. -/
def checkTiling (g : Graph) (id : NodeId) (s : Span) :
    Nat → List NodeId → Except (Failure GraphError) Unit
  | position, [] => demand (position = s.hi) (.tiling id s position)
  | position, child :: rest =>
    match g.node? child with
    | none => raise (.dangling id child)
    | some n => do
      demand (n.span.lo = position) (.tiling id s position)
      g.checkTiling id s n.span.hi rest

def checkAlternative (g : Graph) (id : NodeId) (s : Span) (alternative : NodeId) :
    Except (Failure GraphError) Unit :=
  match g.node? alternative with
  | none => raise (.dangling id alternative)
  | some n => demand (n.isOr = false ∧ n.span = s) (.invalidAlternative id alternative)

def checkNode (g : Graph) (id : NodeId) : Node → Except (Failure GraphError) Unit
  | .terminal s => do
    let length ← s.length
    demand (g.bounds.Admits length) (.terminalLength id length g.bounds.minSize g.bounds.maxSize)
  | .and s children => do
    demand (2 ≤ children.length) (.tooFewChildren id children.length 2)
    g.checkTiling id s s.lo children
  | .or s alternatives => do
    demand (alternatives ≠ []) (.tooFewChildren id 0 1)
    alternatives.forM (g.checkAlternative id s)

/-- Fails with the first breach of a rule. -/
def validate (g : Graph) : Except (Failure GraphError) Unit := do
  let _ ← g.postOrder.mapError .error
  match g.rootNode? with
  | none => raise .empty
  | some n => demand (n.span = ⟨0, g.bounds.dim⟩) (.rootSpan n.span g.bounds.dim)
  g.nodes.toList.zipIdx.forM fun (n, id) => g.checkNode id n

end AndOrFlow.Graph
