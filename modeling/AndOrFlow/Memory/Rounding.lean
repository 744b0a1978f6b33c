/-!
# Rounding to 53 binary digits

Estimates are computed with 53 significant binary digits: every product and every root is rounded to
the nearest number of that form, and a tie goes to the one whose last digit is even. All numbers
here are naturals, scaled by a power of two where a fraction is needed, so nothing is left to the
hardware.
-/
namespace AndOrFlow.Rounding

/-- The quotient of `n` by two to the power `e`, rounded to the nearest number, ties to even. -/
def shift (n e : Nat) : Nat :=
  let quotient := n >>> e
  let rest := n - (quotient <<< e)
  if 1 <<< e < 2 * rest ∨ (1 <<< e = 2 * rest ∧ quotient % 2 = 1) then quotient + 1 else quotient

/-- `n` with 53 significant binary digits. -/
def significant (n : Nat) : Nat :=
  let excess := n.log2 + 1 - 53
  shift n excess <<< excess

/-- The binary digits of the root of `n` below `2 ^ k`, added to those in `root`. -/
def rootFrom : Nat → Nat → Nat → Nat
  | 0, _, root => root
  | k + 1, n, root =>
    let larger := root + (1 <<< k)
    if larger * larger ≤ n then rootFrom k n larger else rootFrom k n root

/-- The integer part of the square root of a number below `2 ^ 256`. -/
def root (n : Nat) : Nat := rootFrom 128 n 0

/-- The integer part of the square root of `n / 2`, the root taken with 53 digits. The root of
`n * 2 ^ 127` is that root with 64 more digits; one more digit records whether it is exact. -/
def rootOfHalf (n : Nat) : Nat :=
  let scaled := n <<< 127
  let digits := root scaled
  let sticky := if digits * digits = scaled then 0 else 1
  significant (2 * digits + sticky) >>> 65

/-- The square root of two with 53 digits, times `2 ^ 52`. -/
def rootOfTwo : Nat := 6369051672525773

/-- The integer part of `n` times the square root of two, the product taken with 53 digits. -/
def timesRootOfTwo (n : Nat) : Nat := significant (significant n * rootOfTwo) >>> 52

end AndOrFlow.Rounding
