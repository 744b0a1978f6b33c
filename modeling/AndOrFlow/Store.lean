import AndOrFlow.Node
import AndOrFlow.Roster
import AndOrFlow.Sorting

/-!
# Sharing equal nodes

A store keeps one node for every structure. Two nodes have the same structure when their keys agree:
the span of a terminal, the children of an and-node in order, the alternatives of an or-node in any
order. As sources are stored before the nodes that refer to them, equal keys mean equal unfoldings.
-/
namespace AndOrFlow

inductive Key where
  | terminal (span : Span)
  | and (children : List NodeId)
  /-- The alternatives in ascending order. -/
  | or (alternatives : List NodeId)
  deriving DecidableEq

namespace Key

/-- A key as a list of numbers. -/
def digits : Key → List Nat
  | terminal s => [0, s.lo, s.hi]
  | and children => 1 :: children
  | or alternatives => 2 :: alternatives

theorem digits_inj {a b : Key} : a.digits = b.digits ↔ a = b := by
  constructor
  · cases a <;> cases b <;> simp [digits, Span.ext_iff]
  · rintro rfl; rfl

instance : Ord Key where
  compare a b := compare a.digits b.digits

instance : Std.TransOrd Key := inferInstanceAs (Std.TransCmp (compareOn digits))

instance : Std.LawfulEqOrd Key where
  compare_self {a} := Std.ReflOrd.compare_self (a := a.digits)
  eq_of_compare h := digits_inj.mp (Std.LawfulEqOrd.eq_of_compare h)

end Key

def Node.key : Node → Key
  | .terminal s => .terminal s
  | .and _ children => .and children
  | .or _ alternatives => .or (Sorting.sort (fun a b => decide (a ≤ b)) alternatives)

structure Store where
  nodes : Array Node
  /-- The keys of the nodes, place by place. -/
  keys : Roster Key
  keys_eq : keys.toList = nodes.toList.map Node.key
  deriving DecidableEq

namespace Store

def empty : Store := ⟨#[], .empty, rfl⟩

def size (s : Store) : Nat := s.nodes.size

def node? (s : Store) (id : NodeId) : Option Node := s.nodes[id]?

/-- The position of the node with this key. -/
def idOf? (s : Store) (k : Key) : Option NodeId := s.keys.place? k

/-- The stored node of the same structure, or the node itself at the next free position. -/
def intern (s : Store) (n : Node) : NodeId × Store :=
  match h : s.idOf? n.key with
  | some id => (id, s)
  | none =>
    (s.size,
      { nodes := s.nodes.push n
        keys := s.keys.add n.key
        keys_eq := by
          have fresh : n.key ∉ s.keys := by simpa [idOf?, Roster.mem_iff_isSome] using h
          simp [fresh, s.keys_eq] })

/-- A key leads to the one node that has it. -/
theorem idOf?_eq_some_iff {s : Store} {k : Key} {id : NodeId} :
    s.idOf? k = some id ↔ (s.node? id).map Node.key = some k := by
  rw [idOf?, Roster.place?_eq_some_iff, s.keys_eq]
  simp [node?]

end Store
end AndOrFlow
