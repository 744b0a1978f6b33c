import AndOrFlow.Failure
import AndOrFlow.Graph.PostOrder
import AndOrFlow.Cache

/-!
# Building the graph of a domain

`Graph.build` resolves `[0, dim)` and keeps what the root reaches, numbered in post-order: the
sources of a node come before it and the root comes last.
-/
namespace AndOrFlow.Graph

/-- The part of a node array that `root` reaches, renumbered in post-order. -/
def canonical (nodes : Array Node) (root : NodeId) (b : Bounds) : Except GraphError Graph := do
  let order ← AndOrFlow.postOrder nodes root
  let kept := order.items.filterMap fun id => nodes[id]?
  let place (id : NodeId) : NodeId := (order.place? id).getD order.size
  return ⟨kept.map (Node.rename place), kept.size - 1, b⟩

/-- The graph of all decompositions of the domain under the size bounds. -/
def build (b : Bounds) : Except (Failure GraphError) Graph :=
  match b.defect? with
  | some defect => Failure.raise (.invalidBounds b.dim b.minSize b.maxSize defect)
  | none => do
    let domain ← Span.make 0 b.dim
    let resolved := Cache.empty.resolve b domain
    match ← resolved.1 with
    | none => Failure.raise (.undecomposable domain)
    | some root => (canonical resolved.2.store.nodes root b).mapError .error

/-- One graph for each of several domains; the first failure ends the run. -/
def buildAll (bs : List Bounds) : Except (Failure GraphError) (List Graph) := bs.mapM build

end AndOrFlow.Graph
