import ExactAlgebra.Expr.Build
import ExactAlgebra.Number.Rational

/-!
# Operands

The arguments of the builders and passes may be given as expressions, as fractions or as scalars.
`Operand.toExpr` reads an operand as an expression or says why it is none. The builders here read
all their operands first, from left to right, and only then look at the node they are to make.
-/

namespace ExactAlgebra

/-- What may be given where an expression is asked for. -/
inductive Operand where
  | expr (e : Expr)
  | fraction (q : Rat)
  | scalar (s : Scalar)

namespace Operand

/-- The expression that an operand stands for. -/
def toExpr : Operand → Except Error Expr
  | expr e => .ok e
  | fraction q => .ok (.num q)
  | scalar (.integer n) => .ok (.num n)
  | scalar .missing => .error (.invalid .missingExpression)
  | scalar s => .error (.invalid (.notAnExpression s))

/-- The expression that an operand stands for, or nothing for an operand that is missing. -/
def toExpr? : Operand → Except Error (Option Expr)
  | scalar .missing => .ok none
  | a => some <$> a.toExpr

/-- The sum of operands, if there is a list of them. -/
def sumOf (terms : Option (List Operand)) : Except Error Expr := do
  match terms with
  | none => .error (.invalid (.noChildren .sum))
  | some ts => Expr.sumOf (← ts.mapM toExpr)

/-- The product of operands, if there is a list of them. -/
def prodOf (factors : Option (List Operand)) : Except Error Expr := do
  match factors with
  | none => .error (.invalid (.noChildren .product))
  | some fs => Expr.prodOf (← fs.mapM toExpr)

/-- The power of two operands. -/
def powOf (base exponent : Operand) : Except Error Expr := do
  Expr.powOf (← base.toExpr) (← exponent.toExpr)

/-- The expression of one letter. -/
def letter (name : Scalar) : Except Error Expr :=
  match Letter.ofScalar? name with
  | some x => .ok (.sym x)
  | none => .error (.invalid (.notALetter name))

/-- The order of two operands, neither of which may be missing. -/
def compare (a b : Operand) : Except Error Ordering := do
  let x ← a.toExpr?
  let y ← b.toExpr?
  match x, y with
  | some x, some y => return x.compare y
  | _, _ => .error (.invalid .missingComparand)

end Operand

/-- The arithmetic signs. -/
inductive Operation where
  | add
  | subtract
  | multiply
  | divide
  | raise
deriving DecidableEq

namespace Operation

/-- The operations. -/
def all : List Operation := [add, subtract, multiply, divide, raise]

/-- The sign of an operation. -/
def sign : Operation → Char
  | add => '+'
  | subtract => '-'
  | multiply => '*'
  | divide => '/'
  | raise => '^'

/-- The operation that a text of one sign denotes. -/
def ofString? (s : String) : Option Operation :=
  all.find? fun o => s.toList = [o.sign]

/-- Two operands joined by a sign. A difference is a sum with the product of minus one and the right
operand, a quotient a product with the power minus one of the right operand; so these read their
right operand first. -/
def join (o : Operation) (a b : Operand) : Except Error Expr := do
  match o with
  | add => Operand.sumOf (some [a, b])
  | multiply => Operand.prodOf (some [a, b])
  | subtract => Operand.sumOf (some [a, .expr (Expr.negated (← b.toExpr))])
  | divide => Operand.prodOf (some [a, .expr (Expr.inverted (← b.toExpr))])
  | raise => Operand.powOf a b

end Operation

end ExactAlgebra
