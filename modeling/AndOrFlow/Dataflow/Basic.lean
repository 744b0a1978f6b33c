import AndOrFlow.Dataflow.Error
import AndOrFlow.Transpose

/-!
# Dataflow graphs

The steps of a computation in execution order. Every step reads the graph input or steps before it,
which the type guarantees, and the last step yields the output.
-/
namespace AndOrFlow

/-- What a step reads: the graph input, or the value of a step by its position. -/
inductive Operand where
  | input
  | step (index : Nat)
  deriving DecidableEq

def Operand.index? : Operand → Option Nat
  | input => none
  | step i => some i

structure Step (Op : Type) where
  /-- The graph node that the step computes. -/
  source : NodeId
  kind : Kind
  span : Span
  inputs : List Operand
  op : Op
  shape : Shape
  params : Nat
  cost : Nat
  deriving DecidableEq

/-- Drops every repetition and keeps the order of first occurrences. -/
def distinct : List Nat → List Nat
  | [] => []
  | i :: rest => i :: (distinct rest).filter (· ≠ i)

@[simp] theorem mem_distinct {i : Nat} {xs : List Nat} : i ∈ distinct xs ↔ i ∈ xs := by
  induction xs with
  | nil => simp [distinct]
  | cons x xs ih => by_cases h : i = x <;> simp [distinct, ih, h]

variable {Op : Type}

/-- The steps that this one reads, with repetitions. -/
def Step.reads (s : Step Op) : List Nat := s.inputs.filterMap Operand.index?

/-- The distinct steps that this one reads, in operand order. -/
def Step.operands (s : Step Op) : List Nat := distinct s.reads

/-- The first step, counted from `i`, that reads itself or a later one, and what it reads. -/
def earlyRead? : Nat → List (Step Op) → Option (Nat × Nat)
  | _, [] => none
  | i, s :: rest =>
    match s.reads.find? (fun j => i ≤ j) with
    | some j => some (i, j)
    | none => earlyRead? (i + 1) rest

theorem lt_of_earlyRead?_eq_none {steps : List (Step Op)} {start : Nat}
    (h : earlyRead? start steps = none) (i : Nat) (s : Step Op) (hs : steps[i]? = some s)
    (j : Nat) (hj : j ∈ s.reads) : j < start + i := by
  induction steps generalizing start i with
  | nil => simp at hs
  | cons first rest ih =>
    simp only [earlyRead?] at h
    split at h
    · simp at h
    · rename_i hfirst
      cases i with
      | zero =>
        simp only [List.getElem?_cons_zero, Option.some.injEq] at hs
        subst hs
        have := List.find?_eq_none.mp hfirst j hj
        simp at this; omega
      | succ i =>
        simp only [List.getElem?_cons_succ] at hs
        have := ih h i hs
        omega

structure Dataflow (Op : Type) where
  steps : Array (Step Op)
  inputShape : Shape
  /-- Every step reads earlier steps only. -/
  reads_lt : ∀ (i : Nat) (s : Step Op), steps[i]? = some s → ∀ j ∈ s.reads, j < i

namespace Dataflow

/-- Takes the steps as a dataflow graph if each reads earlier ones only. -/
def ofSteps (steps : Array (Step Op)) (inputShape : Shape) : Except CompileError (Dataflow Op) :=
  match h : earlyRead? 0 steps.toList with
  | some (i, j) => .error (.outOfOrder i j)
  | none =>
    .ok ⟨steps, inputShape, fun i s hs j hj => by
      simpa using lt_of_earlyRead?_eq_none h i s (by simpa using hs) j hj⟩

def size (g : Dataflow Op) : Nat := g.steps.size

def isEmpty (g : Dataflow Op) : Bool := g.steps.isEmpty

def step? (g : Dataflow Op) (i : Nat) : Option (Step Op) := g.steps[i]?

/-- The step that yields the graph output. -/
def output? (g : Dataflow Op) : Option Nat := if g.size = 0 then none else some (g.size - 1)

def outputShape? (g : Dataflow Op) : Option Shape := g.steps.back?.map Step.shape

/-- The first step that computes a graph node. -/
def lookup? (g : Dataflow Op) (source : NodeId) : Option Nat :=
  g.steps.findIdx? (fun s => s.source = source)

/-- The distinct steps that step `i` reads, in operand order. -/
def operands (g : Dataflow Op) (i : Nat) : List Nat := ((g.step? i).map Step.operands).getD []

/-- The operands of every step. -/
def operandLists (g : Dataflow Op) : Array (List Nat) := g.steps.map Step.operands

/-- For every step the steps that read it, ascending. -/
def consumers (g : Dataflow Op) : Array (List Nat) := transpose g.operandLists

def numParams (g : Dataflow Op) : Checked Nat := Word.sum (g.steps.toList.map Step.params)

/-- Cost of running every step once. -/
def totalCost (g : Dataflow Op) : Checked Nat := Word.sum (g.steps.toList.map Step.cost)

theorem operands_lt (g : Dataflow Op) {i j : Nat} (h : j ∈ g.operands i) : j < i := by
  unfold operands at h
  cases hs : g.step? i with
  | none => simp [hs] at h
  | some s =>
    simp only [hs, Option.map_some, Option.getD_some, Step.operands, mem_distinct] at h
    exact g.reads_lt i s hs j h

/-- A step consumes exactly its operands. -/
theorem mem_consumers {g : Dataflow Op} {i j : Nat} {readers : List Nat}
    (h : g.consumers[j]? = some readers) : i ∈ readers ↔ j ∈ g.operands i := by
  rw [mem_transpose h]
  simp only [operandLists, operands, step?, Array.getElem?_map]
  cases g.steps[i]? <;> simp

end Dataflow
end AndOrFlow
