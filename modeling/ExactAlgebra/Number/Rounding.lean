/-!
# Rounding

Quotients rounded to the nearest integer, and the precision to which floating numbers are rounded. A
number half-way between two integers goes to the even one.
-/

namespace ExactAlgebra

/-- A power of two. -/
def twoTo (k : Nat) : Nat := Nat.pow 2 k

/-- A power of ten. -/
def tenTo (k : Nat) : Nat := Nat.pow 10 k

/-- The bits that a floating number keeps. -/
def significantBits : Nat := 53

/-- The quotient rounded to the nearest integer, half-way cases to the even one. -/
def roundDiv (n d : Nat) : Nat :=
  let q := n / d
  let twice := 2 * (n % d)
  if twice < d ∨ (twice = d ∧ q % 2 = 0) then q else q + 1

end ExactAlgebra
