import AndOrFlow.Memory.Blocks
import AndOrFlow.Memory.Candidate
import AndOrFlow.Memory.Trial

/-!
# Searching for a plan

A search evaluates plans one after the other and keeps the history of all trials. First comes the
plan that retains everything. Then threshold plans: some thresholds guessed, each from the plan
before it, and evenly spaced ones above the best guess. Then, from the best plan within the
recompute budget, single outputs are dropped in order of decreasing bytes per cost, and every drop
that lowers the peak within the budget is kept. The plan of lowest peak within the recompute budget
wins, of several the cheapest, of these the first. If its peak is above the memory limit, the search
fails.
-/
namespace AndOrFlow

/-- An evaluator is a function of the plan. -/
abbrev Evaluator := Plan → Except (Failure PlanError) Report

/-- What a search is about. -/
structure Search (Op : Type) where
  flow : Dataflow Op
  sizing : Sizing
  budget : Budget
  settings : Settings
  rule : GuessRule
  evaluate : Evaluator

/-- The plan chosen, its report and the history that led to it. -/
structure Selection where
  plan : Plan
  report : Report
  trials : List Trial
  deriving DecidableEq

/-- A part of a search; one that fails still tells which plans were evaluated, the last included. -/
abbrev SearchStep := Except (Stop PlanError DropFlags)

/-- Arithmetic within a search: a fault ends the search and leaves the plans evaluated so far. -/
def SearchStep.ofChecked {α : Type} (trials : List Trial) (x : Checked α) : SearchStep α :=
  x.mapError fun f => ⟨.fault f, trials.map Trial.dropped⟩

namespace Search

variable {Op : Type}

/-- Cap on the length of the history. -/
def maxTrials (s : Search Op) : Nat := max s.settings.maxTrials 1

def Exhausted (s : Search Op) (trials : List Trial) : Prop := s.maxTrials ≤ trials.length

instance (s : Search Op) (trials : List Trial) : Decidable (s.Exhausted trials) :=
  inferInstanceAs (Decidable (_ ≤ _))

/-- Evaluates the plan that drops the flagged steps and adds it to the history. -/
def attempt (s : Search Op) (trials : List Trial) (flags : DropFlags) :
    SearchStep (Report × List Trial) :=
  match s.evaluate (.ofDropped s.flow flags) with
  | .ok report => .ok (report, trials ++ [⟨flags, report⟩])
  | .error failure => .error ⟨failure, trials.map Trial.dropped ++ [flags]⟩

/-- Evaluates several plans in order. -/
def attemptAll (s : Search Op) (trials : List Trial) (plans : List DropFlags) :
    SearchStep (List Trial) :=
  plans.foldlM (fun trials flags => return (← s.attempt trials flags).2) trials

/-- The lowest peak of the guesses so far and the guess that first reached it. -/
def lower (lowest : Option (Nat × Nat)) (peak guess : Nat) : Option (Nat × Nat) :=
  match lowest with
  | none => some (peak, guess)
  | some (least, _) => if peak < least then some (peak, guess) else lowest

/-- Tries `n` guessed thresholds. Unless the trials run out, ends with the best guess and the guess
that would come next. -/
def guessThresholds (s : Search Op) :
    Nat → Nat → Option (Nat × Nat) → List Trial →
      SearchStep (List Trial × Option (Nat × Nat))
  | 0, guess, lowest, trials => .ok (trials, lowest.map fun (_, best) => (best, guess))
  | n + 1, guess, lowest, trials =>
    if s.Exhausted trials then .ok (trials, none)
    else do
      let blocks ← SearchStep.ofChecked trials (BlockWalk.ofFlow s.flow s.sizing guess)
      let (report, trials) ← s.attempt trials blocks.flags
      s.guessThresholds n (s.rule.next blocks.largest blocks.saved)
        (lower lowest report.peak guess) trials

/-- Adds the plan for the `k`-th of the thresholds above `low`, `step` apart, unless it is there. -/
def addSpaced (s : Search Op) (low step : Nat) (plans : List DropFlags) (k : Nat) :
    Checked (List DropFlags) := do
  let offset ← Word.mul step k
  let threshold ← Word.add low offset
  let blocks ← BlockWalk.ofFlow s.flow s.sizing threshold
  return if blocks.flags ∈ plans then plans else plans ++ [blocks.flags]

/-- The distinct threshold plans for `count` thresholds above `low`, `step` apart. -/
def spacedPlans (s : Search Op) (low step count : Nat) : Checked (List DropFlags) :=
  (List.range' 1 count).foldlM (s.addSpaced low step) []

/-- Tries evenly spaced thresholds between the best guess and the stretched last one. -/
def spaceThresholds (s : Search Op) (best guess : Nat) (trials : List Trial) :
    SearchStep (List Trial) :=
  let high := s.rule.stretch guess
  let count := s.settings.spaced
  if count = 0 ∨ high ≤ best then .ok trials
  else do
    let step := max ((high - best) / count) 1
    let plans ← SearchStep.ofChecked trials (s.spacedPlans best step count)
    s.attemptAll trials (plans.take (s.maxTrials - trials.length))

/-- Tries threshold plans; an empty graph has none. -/
def sweep (s : Search Op) (trials : List Trial) : SearchStep (List Trial) :=
  if s.flow.isEmpty then .ok trials
  else do
    match ← s.guessThresholds s.settings.guesses 0 none trials with
    | (trials, none) => return trials
    | (trials, some (best, guess)) => s.spaceThresholds best guess trials

/-- Tries to drop the candidates one by one, starting from a plan with these drop flags, this peak
and this cost. A drop that helps is kept, any other is undone. -/
def refine (s : Search Op) :
    List Candidate → DropFlags → Nat → Nat → List Trial → SearchStep (List Trial)
  | [], _, _, _, trials => .ok trials
  | c :: rest, flags, peak, cost, trials =>
    if s.Exhausted trials then .ok trials
    else if ¬ s.budget.AdmitsCost (Word.addClamped cost c.cost) then
      s.refine rest flags peak cost trials
    else do
      let fewer := flags.setIfInBounds c.step true
      let (report, trials) ← s.attempt trials fewer
      if report.peak < peak ∧ s.budget.AdmitsCost report.recomputeCost then
        s.refine rest fewer report.peak report.recomputeCost trials
      else s.refine rest flags peak cost trials

/-- Refines the best plan within the recompute budget, if there is one. -/
def greedy (s : Search Op) (trials : List Trial) : SearchStep (List Trial) :=
  match s.budget.bestOf trials with
  | none => .ok trials
  | some best => do
    let order ← SearchStep.ofChecked trials (candidates s.flow s.sizing best.dropped)
    s.refine order best.dropped best.report.peak best.report.recomputeCost trials

/-- Chooses from the whole history; `first` stands in where no trial is within the budget. -/
def select (s : Search Op) (first : Trial) (trials : List Trial) : SearchStep Selection :=
  let best := (s.budget.bestOf trials).getD first
  if s.budget.AdmitsPeak best.report.peak then
    .ok ⟨.ofDropped s.flow best.dropped, best.report, trials⟩
  else
    .error ⟨.error (.infeasible s.budget.maxCost s.budget.memoryLimit best.report.peak
      (s.budget.leastCostOf trials)), trials.map Trial.dropped⟩

/-- The search. -/
def run (s : Search Op) : SearchStep Selection := do
  let baseline := Array.replicate s.flow.size false
  let (report, trials) ← s.attempt [] baseline
  let trials ← s.sweep trials
  let trials ← s.greedy trials
  s.select ⟨baseline, report⟩ trials

end Search

variable {Op : Type}

/-- Searches with a given evaluator. -/
def search (g : Dataflow Op) (z : Sizing) (b : Budget) (settings : Settings)
    (evaluate : Evaluator) : SearchStep Selection :=
  (Search.mk g z b settings .standard evaluate).run

/-- Searches with the simulator. -/
def planWith (g : Dataflow Op) (z : Sizing) (b : Budget) (settings : Settings) :
    SearchStep Selection :=
  search g z b settings fun p => simulate g p z

/-- The plan found under the standard settings. -/
def plan (g : Dataflow Op) (z : Sizing) (b : Budget) : SearchStep Plan := do
  return (← planWith g z b {}).plan

end AndOrFlow
