import AndOrFlow.Dataflow.Basic
import AndOrFlow.Dataflow.Operator
import AndOrFlow.Graph.PostOrder

/-!
# Compiling a graph to a dataflow graph

The nodes that the root reaches are bound one by one, sources first, each to one step: a shared node
is computed once, and the shapes of all operands are known when the factory is asked for the
operator. A run that fails still tells which requests it had made.
-/
namespace AndOrFlow

variable {Op : Type}

/-- A compiled graph and the requests that led to it, one for each step. -/
structure Compilation (Op : Type) where
  flow : Dataflow Op
  requests : List Request

/-- What a run has made so far. -/
structure CompileState (Op : Type) where
  steps : Array (Step Op)
  requests : Array Request
  /-- The nodes compiled so far, in the order of their steps. -/
  compiled : Roster NodeId

namespace Graph

/-- What a node reads, given the nodes compiled before it. -/
def operandsOf (compiled : Roster NodeId) (id : NodeId) :
    Node → Except (Failure CompileError) (List Operand)
  | .terminal _ => .ok [.input]
  | .and _ sources | .or _ sources =>
    sources.mapM fun child =>
      match compiled.place? child with
      | some i => .ok (.step i)
      | none => Failure.raise (.unresolved id child)

def operandShape (input : Shape) (steps : Array (Step Op)) : Operand → Shape
  | .input => input
  | .step i => (steps[i]?.map Step.shape).getD .scalar

/-- Whether two operands fit together: those of an and-node up to the feature axis, those of an
or-node fully. -/
def Fits (axis : Nat) : Kind → Shape → Shape → Prop
  | .terminal, _, _ => True
  | .and, first, other => first.MatchesExcept other axis
  | .or, first, other => first = other

instance (axis : Nat) (k : Kind) (first other : Shape) : Decidable (Fits axis k first other) := by
  cases k <;> unfold Fits <;> infer_instance

/-- Every operand has to fit the first. -/
def checkOperands (id : NodeId) (n : Node) (axis : Nat) :
    List Shape → Except (Failure CompileError) Unit
  | [] => .ok ()
  | first :: others =>
    match others.find? (fun other => ¬ Fits axis n.kind first other) with
    | some other => Failure.raise (.shapeMismatch id n.span first other)
    | none => .ok ()

/-- The request for a node whose operands are known and fit together, and what the node reads. -/
def requestFor (g : Graph) (input : Shape) (axis : Nat) (state : CompileState Op) (id : NodeId) :
    Except (Failure CompileError) (Request × List Operand) :=
  match g.node? id with
  | none => Failure.raise (.unresolved id id)
  | some n => do
    let operands ← operandsOf state.compiled id n
    let shapes := operands.map (operandShape input state.steps)
    checkOperands id n axis shapes
    return (⟨id, n.kind, n.span, g.bounds.dim, axis, shapes⟩, operands)

/-- Compiles one node. -/
def compileNode (g : Graph) (factory : Factory Op) (input : Shape) (axis : Nat)
    (state : CompileState Op) (id : NodeId) :
    Except (Stop CompileError Request) (CompileState Op) :=
  match g.requestFor input axis state id with
  | .error failure => .error ⟨failure, state.requests.toList⟩
  | .ok (request, operands) =>
    let requests := state.requests.push request
    match factory request with
    | .error failure => .error ⟨failure, requests.toList⟩
    | .ok b =>
      let step := ⟨id, request.kind, request.span, operands, b.op, b.shape, b.params, b.cost⟩
      .ok ⟨state.steps.push step, requests, state.compiled.add id⟩

/-- The order in which nodes are compiled. -/
def compileOrder (g : Graph) : Except CompileError (Roster NodeId) :=
  g.postOrder.mapError fun
    | .dangling node child => .unresolved node child
    | source => .graph source

/-- Compiles a graph for an input whose features lie on the given axis. -/
def compileWith (g : Graph) (factory : Factory Op) (input : Shape) (axis : Nat) :
    Except (Stop CompileError Request) (Compilation Op) :=
  if input.rank ≤ axis then .error ⟨.error (.invalidInput input axis), []⟩
  else
    match g.compileOrder with
    | .error e => .error ⟨.error e, []⟩
    | .ok order => do
      let state ← order.toList.foldlM (g.compileNode factory input axis) ⟨#[], #[], .empty⟩
      match Dataflow.ofSteps state.steps input with
      | .error e => .error ⟨.error e, state.requests.toList⟩
      | .ok flow => .ok ⟨flow, state.requests.toList⟩

/-- Compiles with the features on axis 1, behind the batch. -/
def compile (g : Graph) (factory : Factory Op) (input : Shape) :
    Except (Stop CompileError Request) (Compilation Op) :=
  g.compileWith factory input 1

end Graph
end AndOrFlow
