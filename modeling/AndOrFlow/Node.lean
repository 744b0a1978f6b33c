import AndOrFlow.Span

/-!
# Nodes of an AND-OR graph

A node covers a span: a terminal as a leaf, an and-node by the nodes that it concatenates, an
or-node by any one of its alternatives. Nodes refer to each other by their position in an array.
-/
namespace AndOrFlow

/-- A node's position in its graph. -/
abbrev NodeId := Nat

inductive Kind where
  | terminal
  | and
  | or
  deriving DecidableEq

namespace Kind

/-- Every kind once, in order. -/
def all : List Kind := [terminal, and, or]

def label : Kind → String
  | terminal => "T"
  | and => "AND"
  | or => "OR"

instance : Ord Kind where
  compare a b := compare (all.idxOf a) (all.idxOf b)

end Kind

inductive Node where
  | terminal (span : Span)
  | and (span : Span) (children : List NodeId)
  | or (span : Span) (alternatives : List NodeId)
  deriving DecidableEq

namespace Node

def span : Node → Span
  | terminal s | and s _ | or s _ => s

def kind : Node → Kind
  | terminal _ => .terminal
  | and _ _ => .and
  | or _ _ => .or

/-- The nodes that this one refers to, in order and with repetitions. -/
def sources : Node → List NodeId
  | terminal _ => []
  | and _ children => children
  | or _ alternatives => alternatives

def isTerminal (n : Node) : Bool := n.kind = .terminal

def isOr (n : Node) : Bool := n.kind = .or

/-- The same node with every reference sent through `f`. -/
def rename (f : NodeId → NodeId) : Node → Node
  | terminal s => .terminal s
  | and s children => .and s (children.map f)
  | or s alternatives => .or s (alternatives.map f)

def text (n : Node) : String := n.kind.label ++ n.span.text

/-- Kind, span and sources are all there is to a node. -/
theorem eq_of_parts {m n : Node} (hkind : m.kind = n.kind) (hspan : m.span = n.span)
    (hsources : m.sources = n.sources) : m = n := by
  cases m <;> cases n <;> simp_all [kind, span, sources]

@[simp] theorem span_rename (f : NodeId → NodeId) (n : Node) : (n.rename f).span = n.span := by
  cases n <;> rfl

@[simp] theorem kind_rename (f : NodeId → NodeId) (n : Node) : (n.rename f).kind = n.kind := by
  cases n <;> rfl

@[simp] theorem sources_rename (f : NodeId → NodeId) (n : Node) :
    (n.rename f).sources = n.sources.map f := by
  cases n <;> rfl

end Node

/-- How a node is referred to in messages and drawings. -/
def NodeId.text (id : NodeId) : String := s!"#{id}"

end AndOrFlow
