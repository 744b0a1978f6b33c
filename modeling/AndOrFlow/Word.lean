/-!
# Machine words

Sizes, positions, costs and byte counts are natural numbers below `Word.limit`. Arithmetic on them
never wraps around: an operation whose result leaves that range ends in a `Fault`, and every
computation that may fault says so in its type.
-/
namespace AndOrFlow

/-- The ways in which arithmetic on sizes, or making a span from two positions, has no result. -/
inductive Fault where
  | addition
  | subtraction
  | multiplication
  | emptySpan
  deriving DecidableEq

def Fault.message : Fault → String
  | .addition => "attempt to add with overflow"
  | .subtraction => "attempt to subtract with overflow"
  | .multiplication => "attempt to multiply with overflow"
  | .emptySpan => "assertion failed: lo < hi"

/-- A value, or the fault met on the way to it. -/
abbrev Checked := Except Fault

namespace Word

/-- Two to the power 64; every word is smaller. -/
def limit : Nat := 18446744073709551616

/-- The largest word. -/
def greatest : Nat := limit - 1

def add (a b : Nat) : Checked Nat :=
  if a + b < limit then .ok (a + b) else .error .addition

def sub (a b : Nat) : Checked Nat :=
  if b ≤ a then .ok (a - b) else .error .subtraction

def mul (a b : Nat) : Checked Nat :=
  if a * b < limit then .ok (a * b) else .error .multiplication

/-- Addition that stops at the largest word. -/
def addClamped (a b : Nat) : Nat := min (a + b) greatest

/-- Left to right, so every partial sum has to fit. -/
def sum (xs : List Nat) : Checked Nat := xs.foldlM add 0

/-- Left to right from one: a zero hides only what follows it. -/
def product (xs : List Nat) : Checked Nat := xs.foldlM mul 1

/-- Reads a word in decimal: one optional plus sign, then digits and nothing else. -/
def ofText? (text : String) : Option Nat :=
  match text.toList with
  | '+' :: digits => ofDigits? digits
  | digits => ofDigits? digits
where
  ofDigits? (digits : List Char) : Option Nat :=
    if digits.isEmpty || !digits.all Char.isDigit then none
    else
      let value := digits.foldl (fun n c => 10 * n + (c.toNat - '0'.toNat)) 0
      if value < limit then some value else none

theorem add_eq_ok_iff {a b c : Nat} : add a b = .ok c ↔ a + b = c ∧ c < limit := by
  unfold add; split <;> simp <;> omega

theorem sub_eq_ok_iff {a b c : Nat} : sub a b = .ok c ↔ b ≤ a ∧ a - b = c := by
  unfold sub; split <;> simp <;> omega

theorem mul_eq_ok_iff {a b c : Nat} : mul a b = .ok c ↔ a * b = c ∧ c < limit := by
  unfold mul; split <;> simp <;> omega

end Word
end AndOrFlow
