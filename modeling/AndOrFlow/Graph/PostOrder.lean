import AndOrFlow.Graph.Basic
import AndOrFlow.Graph.Error
import AndOrFlow.Roster

/-!
# Sources first

The post-order walk from the root lists every node that the root reaches, each once and after all
its sources. It fails at the first reference that dangles or leads back to a node still being
visited.
-/
namespace AndOrFlow

/-- Visits the sources of `parent` in order. `path` holds the nodes being visited, `parent` first;
`done` holds the nodes already listed. -/
def visitSources (enter : NodeId → Roster NodeId → Except GraphError (Roster NodeId)) (size : Nat)
    (path : List NodeId) (parent : NodeId) :
    List NodeId → Roster NodeId → Except GraphError (Roster NodeId)
  | [], done => .ok done
  | child :: rest, done =>
    if size ≤ child then .error (.dangling parent child)
    else if child ∈ done then visitSources enter size path parent rest done
    else if child ∈ path then .error (.cycle child)
    else do
      let done ← enter child done
      visitSources enter size path parent rest done

/-- Visits a node below the nodes of `path`, which are distinct; a path is never longer than the
array of nodes, which bounds the depth. -/
def visit (nodes : Array Node) :
    Nat → List NodeId → NodeId → Roster NodeId → Except GraphError (Roster NodeId)
  | 0, _, _, done => .ok done
  | depth + 1, path, id, done => do
    let path := id :: path
    let sources := (nodes[id]?.map Node.sources).getD []
    let done ← visitSources (visit nodes depth path) nodes.size path id sources done
    return done.add id

/-- The nodes reached from `root`, every node after its sources. -/
def postOrder (nodes : Array Node) (root : NodeId) : Except GraphError (Roster NodeId) :=
  if nodes.isEmpty then .error .empty
  else if nodes.size ≤ root then .error (.dangling root root)
  else visit nodes nodes.size [] root .empty

def Graph.postOrder (g : Graph) : Except GraphError (Roster NodeId) :=
  AndOrFlow.postOrder g.nodes g.root

end AndOrFlow
