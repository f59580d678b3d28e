import ExactAlgebra.Operand
import ExactAlgebra.Canonical.Form
import ExactAlgebra.Text.Blank

/-!
# Tokens

The words of an input line. A leaf is a number, with or without a sign, or a letter; the other
tokens are the five signs of arithmetic.
-/

namespace ExactAlgebra

/-- The number or letter that a token is. -/
def Expr.ofToken? (token : String) : Option Expr :=
  match Text.readNumber? token with
  | some n => some (.num n)
  | none => (Letter.ofString? token).map .sym

/-- The tokens of a line, if it is a line of text. -/
def tokensOf (line : Scalar) : Except Error (List String) :=
  match line.asText? with
  | some s => .ok (Text.words s)
  | none => .error (.invalid (.notALine line))

namespace Operation

variable (guess : RootGuess)

/-- The node for two operands; the right operand of a power is simplified to find its exponent. -/
def combine (o : Operation) (left right : Expr) : Traced Expr :=
  match o with
  | add => pure (.ofTerms [left, right])
  | subtract => pure (.ofTerms [left, right.negated])
  | multiply => pure (left.times right)
  | divide => pure (left.times right.inverted)
  | raise => do return .pow left (← right.toExponent guess)

/-- A power whose exponent is a power again, and so on: of three operands the last two are combined
first. -/
def powerTower : List Expr → Traced Expr
  | [] => .fail (.invalid (.tooFewOperands 0))
  | [_] => .fail (.invalid (.tooFewOperands 1))
  | [b, e] => combine guess raise b e
  | b :: es => do combine guess raise b (← powerTower es)

/-- All operands but the first changed. -/
def changeRest (f : Expr → Expr) : List Expr → List Expr
  | [] => []
  | e :: es => e :: es.map f

/-- The node for any number of operands. A difference takes all operands but the first away, a
quotient divides by all but the first. -/
def combineAll (o : Operation) (operands : List Expr) : Traced Expr :=
  match o with
  | add => Expr.sumOf operands
  | subtract => Expr.sumOf (changeRest Expr.negated operands)
  | multiply => Expr.prodOf operands
  | divide => Expr.prodOf (changeRest Expr.inverted operands)
  | raise => powerTower guess operands

end Operation

end ExactAlgebra
