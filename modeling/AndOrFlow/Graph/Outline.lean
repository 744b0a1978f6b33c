import AndOrFlow.Graph.Basic
import AndOrFlow.Roster

/-!
# Drawing a graph as a tree

The outline walks depth first from the root. The first occurrence of a node is followed by its
sources, one level deeper; every later occurrence only points back to the first. So the outline is
finite on every graph, with cycles and dangling references too.
-/
namespace AndOrFlow

inductive Occurrence where
  | first (id : NodeId) (node : Node)
  | again (id : NodeId)
  | missing (id : NodeId)
  deriving DecidableEq

def Occurrence.text : Occurrence → String
  | first id node => s!"{id.text} {node.text}"
  | again id => s!"{id.text} → (see above)"
  | missing id => s!"{id.text} <missing>"

/-- One line of an outline. The trail leads down from the root: for each level, whether the line is
in the last branch of that level. -/
structure OutlineLine where
  trail : List Bool
  occurrence : Occurrence
  deriving DecidableEq

/-- The branches drawn before a line. -/
def branches : List Bool → String
  | [] => ""
  | [last] => if last then "└─ " else "├─ "
  | last :: deeper => (if last then "   " else "│  ") ++ branches deeper

def OutlineLine.text (l : OutlineLine) : String := branches l.trail ++ l.occurrence.text

/-- The lines of several nodes one level below `trail`, one after the other. -/
def outlineAll
    (enter : List Bool → NodeId → Roster NodeId → List OutlineLine × Roster NodeId)
    (trail : List Bool) : List NodeId → Roster NodeId → List OutlineLine × Roster NodeId
  | [], seen => ([], seen)
  | id :: rest, seen =>
    let here := enter (trail ++ [rest.isEmpty]) id seen
    let others := outlineAll enter trail rest here.2
    (here.1 ++ others.1, others.2)

/-- The lines of the part of a graph below one occurrence of a node, and the nodes seen by then. -/
def outlineFrom (nodes : Array Node) :
    Nat → List Bool → NodeId → Roster NodeId → List OutlineLine × Roster NodeId
  | 0, _, _, seen => ([], seen)
  | depth + 1, trail, id, seen =>
    match nodes[id]? with
    | none => ([⟨trail, .missing id⟩], seen)
    | some n =>
      if id ∈ seen then ([⟨trail, .again id⟩], seen)
      else
        let below := outlineAll (outlineFrom nodes depth) trail n.sources (seen.add id)
        (⟨trail, .first id n⟩ :: below.1, below.2)

namespace Graph

/-- Every level but the deepest shows a new node, which bounds the depth. -/
def outline (g : Graph) : List OutlineLine :=
  (outlineFrom g.nodes (g.size + 1) [] g.root .empty).1

/-- The outline as text, with a line break after every line. -/
def tree (g : Graph) : String := String.join (g.outline.map fun l => l.text ++ "\n")

end Graph
end AndOrFlow
