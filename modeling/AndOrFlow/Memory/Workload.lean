import AndOrFlow.Failure
import AndOrFlow.Memory.Plan
import AndOrFlow.Memory.Sizing

/-!
# Simulating a plan

One forward and one backward pass, of which only the bytes in memory are followed. Forward, an
output is allocated when its step runs, and freed after its last consumer if it is dropped.
Backward, from the last step to the first, a step needs its own output and those that it reads; one
that is dropped and not in memory is rebuilt by its replay list. Every output is freed after its own
step. The graph input is not counted.
-/
namespace AndOrFlow

/-- The outcome of a simulation. -/
structure Report where
  forwardPeak : Nat
  /-- Replays included. -/
  backwardPeak : Nat
  /-- The larger of the two. -/
  peak : Nat
  /-- Cost of all replays. -/
  recomputeCost : Nat
  deriving DecidableEq

/-- The memory in the course of a simulation. -/
structure Memory where
  /-- For every step whether its output is in memory. -/
  live : Array Bool
  /-- Bytes of the outputs in memory. -/
  total : Nat
  /-- The largest total observed so far. -/
  peak : Nat
  /-- Cost of the replays so far. -/
  cost : Nat
  deriving DecidableEq

namespace Memory

/-- Nothing in memory, of as many outputs. -/
def empty (size : Nat) : Memory := ⟨Array.replicate size false, 0, 0, 0⟩

/-- Whether the output of step `i` is in memory. -/
def Holds (m : Memory) (i : Nat) : Prop := m.live[i]? = some true

instance (m : Memory) (i : Nat) : Decidable (m.Holds i) :=
  inferInstanceAs (Decidable (_ = some true))

def alloc (bytes : Array Nat) (m : Memory) (i : Nat) : Checked Memory :=
  if m.Holds i then .ok m
  else do
    let total ← Word.add m.total (bytes.getD i 0)
    return { m with live := m.live.setIfInBounds i true, total := total }

def free (bytes : Array Nat) (m : Memory) (i : Nat) : Checked Memory :=
  if m.Holds i then do
    let total ← Word.sub m.total (bytes.getD i 0)
    return { m with live := m.live.setIfInBounds i false, total := total }
  else .ok m

def observe (m : Memory) : Memory := { m with peak := max m.peak m.total }

end Memory

/-- What a simulation knows of a graph: for every step the steps that it reads, the last one that
reads it, its cost and the bytes of its output. -/
structure Workload where
  operands : Array (List Nat)
  lastReaders : Array (Option Nat)
  costs : Array Nat
  bytes : Array Nat

namespace Workload

variable {Op : Type}

def ofFlow (g : Dataflow Op) (z : Sizing) : Checked Workload := do
  let bytes ← g.steps.mapM fun s => z.bytes s.shape
  return ⟨g.operandLists, g.consumers.map List.getLast?, g.steps.map Step.cost, bytes⟩

def size (w : Workload) : Nat := w.bytes.size

def operandsOf (w : Workload) (i : Nat) : List Nat := w.operands.getD i []

def lastReaderOf (w : Workload) (i : Nat) : Option Nat := w.lastReaders.getD i none

/-- Frees the operand `j` of step `i` if it is dropped and read no more. -/
def release (w : Workload) (p : Plan) (i : Nat) (m : Memory) (j : Nat) : Checked Memory :=
  if p.isDropped j ∧ w.lastReaderOf j = some i then m.free w.bytes j else .ok m

/-- Step `i` of the forward pass. -/
def forwardStep (w : Workload) (p : Plan) (m : Memory) (i : Nat) : Checked Memory := do
  let m ← m.alloc w.bytes i
  let m ← (w.operandsOf i).foldlM (w.release p i) m.observe
  if p.isDropped i ∧ w.lastReaderOf i = none then m.free w.bytes i else .ok m

/-- Runs step `r` once more unless its output is in memory. -/
def rerun (w : Workload) (m : Memory) (r : Nat) : Checked Memory :=
  if m.Holds r then .ok m
  else do
    let m ← m.alloc w.bytes r
    let cost ← Word.add m.cost (w.costs.getD r 0)
    return { m with cost := cost }

/-- Rebuilds the output of step `v` if it is dropped and not in memory. -/
def supply (w : Workload) (p : Plan) (m : Memory) (v : Nat) : Checked Memory :=
  if m.Holds v then .ok m
  else (((p.decision? v).map Decision.replay).getD []).foldlM w.rerun m

/-- Brings the output of step `i` and all that it reads into memory. -/
def gather (w : Workload) (p : Plan) (m : Memory) (i : Nat) : Checked Memory :=
  (i :: w.operandsOf i).foldlM (w.supply p) m

/-- Step `i` of the backward pass. -/
def backwardStep (w : Workload) (p : Plan) (m : Memory) (i : Nat) : Checked Memory := do
  let m ← w.gather p m i
  m.observe.free w.bytes i

def forward (w : Workload) (p : Plan) : Checked Memory :=
  (List.range w.size).foldlM (w.forwardStep p) (.empty w.size)

def backward (w : Workload) (p : Plan) (m : Memory) : Checked Memory :=
  (List.range w.size).reverse.foldlM (w.backwardStep p) { m with peak := 0 }

def run (w : Workload) (p : Plan) : Checked Report := do
  let m ← w.forward p
  let n ← w.backward p m
  return ⟨m.peak, n.peak, max m.peak n.peak, n.cost⟩

end Workload

variable {Op : Type}

/-- Simulates a plan with one decision for every step of the graph. -/
def simulate (g : Dataflow Op) (p : Plan) (z : Sizing) : Except (Failure PlanError) Report := do
  Failure.demand (p.size = g.size) (.mismatch g.size p.size)
  let w ← Workload.ofFlow g z
  w.run p

/-- The peak bytes of a plan. -/
def peakOf (g : Dataflow Op) (p : Plan) (z : Sizing) : Except (Failure PlanError) Nat := do
  return (← simulate g p z).peak

end AndOrFlow
