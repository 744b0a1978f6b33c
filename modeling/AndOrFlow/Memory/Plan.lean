import AndOrFlow.Dataflow.Basic
import AndOrFlow.Sorting

/-!
# Memory plans

A plan says for every step of a dataflow graph whether its output stays in memory until the backward
pass reaches the step, or is dropped after its last use and rebuilt on demand. To rebuild an output,
the steps of its replay list are run again: the step itself and the dropped steps that it reads,
directly or through other dropped steps. The graph output is never dropped.
-/
namespace AndOrFlow

inductive Decision where
  | retain
  /-- Rebuilt by running `replay`, an ascending list of steps within `[start, stop)`. -/
  | recompute (start stop : Nat) (replay : List Nat)
  deriving DecidableEq

namespace Decision

def isRetain : Decision → Bool
  | retain => true
  | recompute .. => false

def isRecompute (d : Decision) : Bool := !d.isRetain

/-- The steps to run again; none for a retained output. -/
def replay : Decision → List Nat
  | retain => []
  | recompute _ _ steps => steps

/-- The decision to rebuild an output by the given steps. -/
def ofReplay (steps : List Nat) (step : Nat) : Decision :=
  .recompute (steps.headD step) (step + 1) steps

end Decision

/-- For every step whether its output is to be dropped. -/
abbrev DropFlags := Array Bool

/-- One letter for each step: `R` for a retained output, a point for a dropped one. -/
def DropFlags.text (flags : DropFlags) : String :=
  String.ofList (flags.toList.map fun dropped => if dropped then '.' else 'R')

structure Plan where
  decisions : Array Decision
  deriving DecidableEq

namespace Plan

variable {Op : Type}

/-- Keeps every output. -/
def retainAll (g : Dataflow Op) : Plan := ⟨Array.replicate g.size .retain⟩

/-- Whether step `i` is dropped: it is flagged and does not yield the graph output. A missing flag
means that it is kept. -/
def Drops (g : Dataflow Op) (flags : DropFlags) (i : Nat) : Prop :=
  g.output? ≠ some i ∧ flags[i]? = some true

instance (g : Dataflow Op) (flags : DropFlags) (i : Nat) : Decidable (Drops g flags i) :=
  inferInstanceAs (Decidable (_ ∧ _))

/-- The replay list of a dropped step: what its dropped operands replay, and itself. -/
def replayOf (earlier : Array Decision) (operands : List Nat) (i : Nat) : List Nat :=
  (operands.map fun j => ((earlier[j]?).map Decision.replay).getD []).foldr Sorting.union [] ++ [i]

/-- The decision on step `i`, given those on the steps before it. -/
def decisionAt (g : Dataflow Op) (flags : DropFlags) (earlier : Array Decision) (i : Nat) :
    Decision :=
  if Drops g flags i then .ofReplay (replayOf earlier (g.operands i) i) i else .retain

/-- The decisions on the first `n` steps. -/
def decisionsBelow (g : Dataflow Op) (flags : DropFlags) : Nat → Array Decision
  | 0 => #[]
  | n + 1 =>
    let earlier := decisionsBelow g flags n
    earlier.push (decisionAt g flags earlier n)

/-- The plan that drops the flagged steps. -/
def ofDropped (g : Dataflow Op) (flags : DropFlags) : Plan := ⟨decisionsBelow g flags g.size⟩

def size (p : Plan) : Nat := p.decisions.size

def isEmpty (p : Plan) : Bool := p.decisions.isEmpty

def decision? (p : Plan) (i : Nat) : Option Decision := p.decisions[i]?

def isDropped (p : Plan) (i : Nat) : Bool := ((p.decision? i).map Decision.isRecompute).getD false

/-- The drop flag of every step. -/
def dropped (p : Plan) : DropFlags := p.decisions.map Decision.isRecompute

def numDropped (p : Plan) : Nat := p.decisions.countP Decision.isRecompute

/-- Cost of running every dropped step once more. -/
def recomputeCost (p : Plan) (g : Dataflow Op) : Checked Nat :=
  let dropped := (g.steps.zip p.decisions).toList.filter fun (_, d) => d.isRecompute
  Word.sum (dropped.map fun (s, _) => s.cost)

def text (p : Plan) : String := p.dropped.text

@[simp] theorem size_decisionsBelow (g : Dataflow Op) (flags : DropFlags) (n : Nat) :
    (decisionsBelow g flags n).size = n := by
  induction n with
  | zero => rfl
  | succ n ih => simp [decisionsBelow, ih]

theorem getElem?_decisionsBelow (g : Dataflow Op) (flags : DropFlags) {i n : Nat} (h : i < n) :
    (decisionsBelow g flags n)[i]? = some (decisionAt g flags (decisionsBelow g flags i) i) := by
  induction n with
  | zero => omega
  | succ n ih =>
    rw [decisionsBelow, Array.getElem?_push, size_decisionsBelow]
    split
    · simp [*]
    · exact ih (by omega)

@[simp] theorem isRecompute_decisionAt {g : Dataflow Op} {flags : DropFlags}
    {earlier : Array Decision} {i : Nat} :
    (decisionAt g flags earlier i).isRecompute = true ↔ Drops g flags i := by
  unfold decisionAt
  split <;> simp [*, Decision.ofReplay, Decision.isRecompute, Decision.isRetain]

@[simp] theorem size_ofDropped (g : Dataflow Op) (flags : DropFlags) :
    (ofDropped g flags).size = g.size :=
  size_decisionsBelow g flags g.size

theorem isDropped_ofDropped {g : Dataflow Op} {flags : DropFlags} {i : Nat} (h : i < g.size) :
    (ofDropped g flags).isDropped i = true ↔ Drops g flags i := by
  simp [isDropped, decision?, ofDropped, getElem?_decisionsBelow g flags h]

/-- Without a flag on a step that may be dropped, everything is retained. -/
theorem ofDropped_eq_retainAll {g : Dataflow Op} {flags : DropFlags}
    (h : ∀ i, ¬ Drops g flags i) : ofDropped g flags = retainAll g := by
  suffices ∀ n, decisionsBelow g flags n = Array.replicate n .retain from
    congrArg Plan.mk (this g.size)
  intro n
  induction n with
  | zero => rfl
  | succ n ih => simp [decisionsBelow, ih, decisionAt, h n, Array.replicate_succ]

end Plan
end AndOrFlow
