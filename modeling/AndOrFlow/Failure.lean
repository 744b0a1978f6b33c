import AndOrFlow.Word

/-!
# Runs that end early

A computation ends without its value either on a word fault or with an error of its own domain. The
two are kept apart: an error is an answer about the input, a fault is not.
-/
namespace AndOrFlow

inductive Failure (ε : Type) where
  | fault (f : Fault)
  | error (e : ε)
  deriving DecidableEq

/-- A failure together with what the run had done before it. -/
structure Stop (ε α : Type) where
  failure : Failure ε
  done : List α
  deriving DecidableEq

variable {ε α : Type}

instance : MonadLift Checked (Except (Failure ε)) where
  monadLift x := x.mapError .fault

/-- The computation that fails with a domain error. -/
def Failure.raise (e : ε) : Except (Failure ε) α := .error (.error e)

/-- Fails with the given error unless the condition holds. -/
def Failure.demand (p : Prop) [Decidable p] (e : ε) : Except (Failure ε) Unit :=
  if p then .ok () else .error (.error e)

/-- A sequence has a value exactly when both of its parts have one. -/
theorem bind_eq_ok_iff {β : Type} {x : Except ε α} {f : α → Except ε β} {b : β} :
    (x >>= f) = .ok b ↔ ∃ a, x = .ok a ∧ f a = .ok b := by
  cases x <;> simp [bind, Except.bind]

@[simp] theorem monadLift_eq_ok_iff {x : Checked α} {a : α} :
    (monadLift x : Except (Failure ε) α) = .ok a ↔ x = .ok a := by
  cases x with
  | error f => constructor <;> intro h <;> cases h
  | ok b => constructor <;> intro h <;> cases h <;> rfl

@[simp] theorem monadLift_eq_fault_iff {x : Checked α} {f : Fault} :
    (monadLift x : Except (Failure ε) α) = .error (.fault f) ↔ x = .error f := by
  cases x with
  | error e => constructor <;> intro h <;> cases h <;> rfl
  | ok b => constructor <;> intro h <;> cases h

@[simp] theorem Failure.demand_eq_ok_iff {p : Prop} [Decidable p] {e : ε} {u : Unit} :
    Failure.demand p e = .ok u ↔ p := by
  unfold Failure.demand; split <;> simp_all

@[simp] theorem Failure.raise_ne_fault {e : ε} {f : Fault} :
    (Failure.raise e : Except (Failure ε) α) ≠ .error (.fault f) := by
  simp [Failure.raise]

@[simp] theorem Failure.demand_ne_fault {p : Prop} [Decidable p] {e : ε} {f : Fault} :
    Failure.demand p e ≠ .error (.fault f) := by
  unfold Failure.demand; split <;> simp

end AndOrFlow
