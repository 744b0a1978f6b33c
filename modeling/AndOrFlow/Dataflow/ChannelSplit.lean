import AndOrFlow.Dataflow.Operator

/-!
# Splitting channels into equal units

The factory that cuts the channels of the input, and those of the output, into as many equal units
as the domain has positions. A node over a span yields one output unit for every position in it: a
terminal transforms the input units of its span, an and-node concatenates its operands and reduces
them to its width, an or-node merges operands of its own width by a combine rule.
-/
namespace AndOrFlow

/-- How an or-node merges its alternatives. -/
inductive CombineRule where
  /-- Elementwise sum. -/
  | sum
  /-- Elementwise sum, cut off below zero. -/
  | sumRelu
  /-- Sum with one learned factor for each alternative. -/
  | weightedSum
  /-- Concatenation, reduced to the width of the node. -/
  | concatReduce
  deriving DecidableEq

namespace CombineRule

/-- Every rule once, in order. -/
def all : List CombineRule := [sum, sumRelu, weightedSum, concatReduce]

def standard : CombineRule := sum

def name : CombineRule → String
  | sum => "Sum"
  | sumRelu => "SumRelu"
  | weightedSum => "WeightedSum"
  | concatReduce => "ConcatReduce"

def ofName? (name : String) : Option CombineRule := all.find? (fun r => r.name == name)

/-- Parameters and cost of merging `arity` operands of the given width into `count` elements. -/
def charge (count arity width : Nat) : CombineRule → Checked (Nat × Nat)
  | sum => do return (0, ← Word.mul count arity)
  | sumRelu => do
    let terms ← Word.add arity 1
    return (0, ← Word.mul count terms)
  | weightedSum => do
    let doubled ← Word.mul count 2
    return (arity, ← Word.mul doubled arity)
  | concatReduce => do
    let fused ← Word.mul arity width
    let weights ← Word.mul fused width
    return (← Word.add weights width, ← Word.mul count fused)

end CombineRule

inductive UnitOp where
  /-- Takes the input channels `[lo, hi)` to `outWidth` channels. -/
  | transform (lo hi outWidth : Nat)
  | fuse (inWidth outWidth : Nat)
  | combine (rule : CombineRule) (arity width : Nat)
  deriving DecidableEq

structure ChannelSplit where
  inChannels : Nat
  outChannels : Nat
  rule : CombineRule := .standard
  deriving DecidableEq

namespace ChannelSplit

open Failure (demand raise)

/-- Channels for each position of the domain. -/
def unit (channels : Nat) (r : Request) : Except (Failure CompileError) Nat := do
  demand (0 < r.dim ∧ channels % r.dim = 0)
    (.operator r.node s!"{channels} channels do not split into {r.dim} units")
  return channels / r.dim

/-- Size of an operand on the feature axis. -/
def widthOf (s : Shape) (r : Request) : Except (Failure CompileError) Nat :=
  match s.dim? r.axis with
  | some width => .ok width
  | none => raise (.invalidInput s r.axis)

def firstOperand (r : Request) : Except (Failure CompileError) Shape :=
  match r.inputs with
  | first :: _ => .ok first
  | [] => raise (.operator r.node "missing operand 0")

/-- Parameters of a dense map between the widths, one offset for each output included. -/
def denseParams (inWidth outWidth : Nat) : Checked Nat := do
  let weights ← Word.mul inWidth outWidth
  Word.add weights outWidth

/-- The sum of the operands' widths. -/
def totalWidth (r : Request) : List Shape → Nat → Except (Failure CompileError) Nat
  | [], total => .ok total
  | s :: rest, total => do
    let width ← widthOf s r
    let total ← Word.add total width
    totalWidth r rest total

def bindTerminal (c : ChannelSplit) (r : Request) (first shape : Shape) (outWidth count : Nat) :
    Except (Failure CompileError) (Binding UnitOp) := do
  let unit ← unit c.inChannels r
  let available ← widthOf first r
  demand (available = c.inChannels)
    (.shapeMismatch r.node r.span (first.withDim r.axis c.inChannels) first)
  let lo ← Word.mul r.span.lo unit
  let hi ← Word.mul r.span.hi unit
  let inWidth ← Word.sub hi lo
  let params ← denseParams inWidth outWidth
  let cost ← Word.mul count inWidth
  return ⟨.transform lo hi outWidth, shape, params, cost⟩

def bindAnd (r : Request) (shape : Shape) (outWidth count : Nat) :
    Except (Failure CompileError) (Binding UnitOp) := do
  let inWidth ← totalWidth r r.inputs 0
  let params ← denseParams inWidth outWidth
  let cost ← Word.mul count inWidth
  return ⟨.fuse inWidth outWidth, shape, params, cost⟩

def bindOr (c : ChannelSplit) (r : Request) (first shape : Shape) (outWidth count : Nat) :
    Except (Failure CompileError) (Binding UnitOp) := do
  let width ← widthOf first r
  demand (width = outWidth) (.shapeMismatch r.node r.span shape first)
  let charged ← c.rule.charge count r.inputs.length width
  return ⟨.combine c.rule r.inputs.length width, shape, charged.1, charged.2⟩

/-- The factory itself. -/
def bind (c : ChannelSplit) : Factory UnitOp := fun r => do
  let length ← r.span.length
  let unit ← unit c.outChannels r
  let outWidth ← Word.mul length unit
  let first ← firstOperand r
  let shape := first.withDim r.axis outWidth
  let count ← shape.count
  match r.kind with
  | .terminal => c.bindTerminal r first shape outWidth count
  | .and => bindAnd r shape outWidth count
  | .or => c.bindOr r first shape outWidth count

end ChannelSplit
end AndOrFlow
