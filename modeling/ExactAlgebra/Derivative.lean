import ExactAlgebra.Operand

/-!
# Partial derivatives

`derivative x e` is the derivative of `e` in the letter `x`, by the rules for sums, products of any
number of factors, and powers with a constant exponent. The result is not simplified: every factor
and term that the rules write down is there.
-/

namespace ExactAlgebra.Expr

/-- The lists in which one member of the first list is replaced by the member of the second list at
the same place, for each place from the left. -/
def replaceEach : List Expr → List Expr → List (List Expr)
  | f :: fs, d :: ds => (d :: fs) :: (replaceEach fs ds).map (f :: ·)
  | _, _ => []

mutual

/-- The partial derivative of an expression in a letter. -/
def derivative (x : Letter) : Expr → Expr
  | num _ => num 0
  | sym y => if y = x then num 1 else num 0
  | pow b e => ofFactors [num e, pow b (Rational.add e (-1)), b.derivative x]
  | prod fs => ofTerms ((replaceEach fs (derivatives x fs)).map ofFactors)
  | sum ts => ofTerms (derivatives x ts)

/-- The partial derivatives of the expressions of a list. -/
def derivatives (x : Letter) : List Expr → List Expr
  | [] => []
  | e :: es => e.derivative x :: derivatives x es

end

end ExactAlgebra.Expr

namespace ExactAlgebra

/-- What may be given as the letter to derive on. -/
inductive Variable where
  | letter (x : Letter)
  | scalar (s : Scalar)

namespace Variable

/-- The letter that is meant. -/
def toLetter : Variable → Except Error Letter
  | letter x => .ok x
  | scalar s =>
    match Letter.ofScalar? s with
    | some x => .ok x
    | none => .error (.invalid (.notAVariable s))

end Variable

namespace Operand

/-- The partial derivative of an operand; the letter is looked at before the operand is. -/
def derivative (a : Operand) (v : Variable) : Except Error Expr := do
  let x ← v.toLetter
  return (← a.toExpr).derivative x

end Operand

end ExactAlgebra
