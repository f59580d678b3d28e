import ExactAlgebra.Expr.Build
import ExactAlgebra.Number.Root

/-!
# Reducing a power

The base of the power is in canonical form already. A power of a power becomes one power of the
inner base, the exponent one drops out, and a power of a number is worked out if the root that it
asks for is rational and found. The exponent zero gives one on a number other than zero and is
refused on anything else, zero included.
-/

namespace ExactAlgebra.Canonical

variable (guess : RootGuess)

/-- A number other than zero raised to a positive exponent: worked out where its root is found. An
even root of a negative number is not looked for. -/
def positivePower (q e : Rat) : Except Error Expr :=
  if 0 < q.num ∨ e.den % 2 = 1 then do
    match ← Root.rationalRoot guess q e.den with
    | some r => return .num (← Rational.power r e.num)
    | none => return .pow (.num q) e
  else .ok (.pow (.num q) e)

/-- A number raised to an exponent. -/
def numberPower (q e : Rat) : Except Error Expr :=
  if q = 0 then
    if e = 0 then .error (.undefined .zeroToZero) else .ok (.num 0)
  else if e = 0 then .ok (.num 1)
  else if e.num < 0 then do positivePower guess (← Rational.reciprocal q) (Rational.negate e)
  else positivePower guess q e

/-- An expression that is no power, in canonical form, raised to an exponent. -/
def raised (b : Expr) (e : Rat) : Except Error Expr :=
  if e = 1 then .ok b
  else
    match b with
    | .num q => numberPower guess q e
    | b => if e = 0 then .error (.undefined (.vanishedExponent b)) else .ok (.pow b e)

/-- The base and exponent of a power once a power in its base is drawn into it. -/
def drawnTogether (b : Expr) (e : Rat) : Expr × Rat :=
  match b with
  | .pow c inner => (c, Rational.multiply e inner)
  | b => (b, e)

/-- An expression in canonical form raised to an exponent. -/
def power (b : Expr) (e : Rat) : Except Error Expr :=
  let (b, e) := drawnTogether b e
  raised guess b e

end ExactAlgebra.Canonical
