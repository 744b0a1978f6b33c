import AndOrFlow.Word

/-!
# Budgets and settings of a search
-/
namespace AndOrFlow

/-- What a plan may cost. -/
structure Budget where
  /-- Largest recompute cost that the backward pass may add. -/
  maxCost : Nat := Word.greatest
  /-- Largest acceptable peak; without one the peak is only made small. -/
  memoryLimit : Option Nat := none
  deriving DecidableEq

namespace Budget

/-- No recomputation. -/
def noRecompute : Budget := { maxCost := 0 }

def unlimited : Budget := { maxCost := Word.greatest }

/-- The budget when none is named: no recomputation, and no limit on memory. -/
def standard : Budget := noRecompute

def withMemoryLimit (b : Budget) (bytes : Nat) : Budget := { b with memoryLimit := some bytes }

def AdmitsCost (b : Budget) (cost : Nat) : Prop := cost ≤ b.maxCost

def AdmitsPeak (b : Budget) (peak : Nat) : Prop := ∀ limit ∈ b.memoryLimit, peak ≤ limit

instance (b : Budget) (cost : Nat) : Decidable (b.AdmitsCost cost) :=
  inferInstanceAs (Decidable (cost ≤ b.maxCost))

instance (b : Budget) (peak : Nat) : Decidable (b.AdmitsPeak peak) :=
  match h : b.memoryLimit with
  | none => isTrue (by simp [AdmitsPeak, h])
  | some limit => decidable_of_iff (peak ≤ limit) (by simp [AdmitsPeak, h])

end Budget

/-- How far a search goes. -/
structure Settings where
  /-- Cap on evaluated plans, the one that retains everything included. -/
  maxTrials : Nat := 512
  /-- Thresholds guessed one from the other. -/
  guesses : Nat := 3
  /-- Evenly spaced thresholds tried after the guesses. -/
  spaced : Nat := 6
  /-- Evaluations may run on several workers; no result depends on it. -/
  parallel : Bool := true
  deriving DecidableEq

/-- Settings from named texts, such as environment variables. A text that is no word counts as
missing, and any text under the last name turns the workers off. -/
def Settings.ofLookup (lookup : String → Option String) : Settings :=
  let standard : Settings := {}
  let word (name : String) (fallback : Nat) := ((lookup name).bind Word.ofText?).getD fallback
  { maxTrials := word "AOGNET_PLAN_TRIALS" standard.maxTrials
    guesses := word "AOGNET_PLAN_SWEEPS" standard.guesses
    spaced := word "AOGNET_PLAN_THRESHOLDS" standard.spaced
    parallel := (lookup "AOGNET_PLAN_SERIAL").isNone }

end AndOrFlow
