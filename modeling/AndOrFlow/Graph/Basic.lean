import AndOrFlow.Bounds
import AndOrFlow.Node
import AndOrFlow.Transpose

/-!
# AND-OR graphs

A graph is an array of nodes, a root and the size bounds that it answers to. Nothing is assumed of
the nodes: references may dangle, form cycles or repeat. Which graphs are well formed is the matter
of `AndOrFlow.Graph.Validity`.
-/
namespace AndOrFlow

structure Graph where
  nodes : Array Node
  root : NodeId
  bounds : Bounds
  deriving DecidableEq

namespace Graph

def size (g : Graph) : Nat := g.nodes.size

def isEmpty (g : Graph) : Bool := g.nodes.isEmpty

def node? (g : Graph) (id : NodeId) : Option Node := g.nodes[id]?

def rootNode? (g : Graph) : Option Node := g.node? g.root

/-- For every node those that refer to it, ascending, each as often as it does. -/
def parents (g : Graph) : Array (List NodeId) := transpose (g.nodes.map Node.sources)

/-- Node counts. -/
structure Stats where
  terminals : Nat
  ands : Nat
  ors : Nat
  edges : Nat
  /-- Nodes that are referred to more than once. -/
  shared : Nat
  deriving DecidableEq

def Stats.total (s : Stats) : Nat := s.terminals + s.ands + s.ors

def countKind (g : Graph) (k : Kind) : Nat := g.nodes.countP (fun n => n.kind = k)

def stats (g : Graph) : Stats where
  terminals := g.countKind .terminal
  ands := g.countKind .and
  ors := g.countKind .or
  edges := (g.nodes.toList.flatMap Node.sources).length
  shared := g.parents.countP (fun p => 1 < p.length)

theorem size_parents (g : Graph) : g.parents.size = g.size := by
  simp [parents, size]

/-- Being a parent is being a node that refers to the child. -/
theorem mem_parents {g : Graph} {parent child : NodeId} {ids : List NodeId}
    (h : g.parents[child]? = some ids) :
    parent ∈ ids ↔ ∃ n, g.node? parent = some n ∧ child ∈ n.sources := by
  rw [mem_transpose h]
  simp only [Array.getElem?_map, Option.map_eq_some_iff, node?]
  grind

end Graph
end AndOrFlow
