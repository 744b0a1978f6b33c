import AndOrFlow.Memory.Budget
import AndOrFlow.Memory.Workload

/-!
# Trials

A trial says which outputs a plan dropped and how the plan was reported on. What a search has
learned is a list of trials, in the order in which they were made; the best plan and the least
budget that would do are read off that list.
-/
namespace AndOrFlow

/-- An evaluated plan, known by its drop flags. -/
structure Trial where
  dropped : DropFlags
  report : Report
  deriving DecidableEq

/-- Lower peak, or the same peak at lower cost. -/
def Trial.Better (a b : Trial) : Prop :=
  a.report.peak < b.report.peak ∨
    (a.report.peak = b.report.peak ∧ a.report.recomputeCost < b.report.recomputeCost)

instance (a b : Trial) : Decidable (a.Better b) := inferInstanceAs (Decidable (_ ∨ _))

namespace Budget

/-- The best of the trials within the recompute budget, of equal ones the first. -/
def bestOf (b : Budget) (trials : List Trial) : Option Trial :=
  (trials.filter fun t => b.AdmitsCost t.report.recomputeCost).foldl keep none
where
  keep : Option Trial → Trial → Option Trial
    | none, t => some t
    | some best, t => if t.Better best then some t else some best

/-- The least recompute cost of the trials within the memory limit. -/
def leastCostOf (b : Budget) (trials : List Trial) : Option Nat :=
  ((trials.filter fun t => b.AdmitsPeak t.report.peak).map fun t => t.report.recomputeCost).min?

end Budget

end AndOrFlow
