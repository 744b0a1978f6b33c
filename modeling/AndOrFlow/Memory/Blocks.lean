import AndOrFlow.Memory.Plan
import AndOrFlow.Memory.Rounding
import AndOrFlow.Memory.Sizing

/-!
# Threshold plans

The execution order is cut into blocks: a block ends with the first step at which its bytes exceed
the threshold, and the last block with the graph output. The output of the step that ends a block is
retained and the rest of the block is dropped. The sizes of the blocks seed the next threshold.
-/
namespace AndOrFlow

variable {Op : Type}

/-- The walk over the execution order. -/
structure BlockWalk where
  /-- The drop flags of the steps so far. -/
  flags : DropFlags
  /-- Bytes of the block that is open. -/
  block : Nat
  /-- Bytes of the largest block closed so far. -/
  largest : Nat
  /-- Bytes of the outputs retained so far. -/
  saved : Nat
  deriving DecidableEq

namespace BlockWalk

def start : BlockWalk := ⟨#[], 0, 0, 0⟩

/-- Adds step `i`, whose output has the given bytes. -/
def next (threshold : Nat) (isOutput : Bool) (bytes : Nat) (w : BlockWalk) : Checked BlockWalk := do
  let block ← Word.add w.block bytes
  if threshold < block ∨ isOutput then
    let saved ← Word.add w.saved bytes
    return ⟨w.flags.push false, 0, max w.largest block, saved⟩
  else
    return ⟨w.flags.push true, block, w.largest, w.saved⟩

/-- Walks on over the steps that are left; the last one yields the graph output. -/
def onward (z : Sizing) (threshold : Nat) : List (Step Op) → BlockWalk → Checked BlockWalk
  | [], w => .ok w
  | s :: rest, w => do
    let bytes ← z.bytes s.shape
    let w ← w.next threshold rest.isEmpty bytes
    onward z threshold rest w

/-- Walks over a whole graph. -/
def ofFlow (g : Dataflow Op) (z : Sizing) (threshold : Nat) : Checked BlockWalk :=
  onward z threshold g.steps.toList start

end BlockWalk

structure BlockPlan where
  plan : Plan
  threshold : Nat
  /-- Bytes of the largest block. -/
  largest : Nat
  /-- Bytes of all retained outputs. -/
  saved : Nat
  deriving DecidableEq

/-- The plan that retains one output for each block. -/
def BlockPlan.make (g : Dataflow Op) (z : Sizing) (threshold : Nat) : Checked BlockPlan := do
  let w ← BlockWalk.ofFlow g z threshold
  return ⟨.ofDropped g w.flags, threshold, w.largest, w.saved⟩

/-- How thresholds are guessed from the sizes of earlier plans. -/
structure GuessRule where
  /-- The guess after a plan whose largest block and retained outputs have these sizes. -/
  next (largest saved : Nat) : Nat
  /-- The upper end of the thresholds worth trying, from the last guess. -/
  stretch (guess : Nat) : Nat

/-- The root of half the product of both sizes. -/
def nextThreshold (largest saved : Nat) : Nat :=
  Rounding.rootOfHalf
    (Rounding.significant (Rounding.significant saved * Rounding.significant largest))

/-- Guesses the geometric mean of both sizes, halved under the root, and stretches the last guess by
the root of two. -/
def GuessRule.standard : GuessRule where
  next := nextThreshold
  stretch guess := min (Rounding.timesRootOfTwo guess) Word.greatest

end AndOrFlow
