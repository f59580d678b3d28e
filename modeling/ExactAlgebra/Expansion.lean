import ExactAlgebra.Expr.Build
import ExactAlgebra.Number.Rational

/-!
# Expansion

`expand` applies the distributive law until no sum is a factor of a product, and writes a power with
a whole number in its exponent as a product. What is left of an exponent is its sign over its
denominator. The result is not simplified: like terms stay apart.

Products are multiplied out from the left, two factors at a time (`distribute`).
-/

namespace ExactAlgebra.Expr

/-- The product of two expressions, multiplied out over the terms of either that is a sum. Where
none is, further factors join the product on the left, unless that one is the `first` factor and so
a product of its own. -/
def distribute (a b : Expr) (first : Bool) : Expr :=
  match a, b with
  | sum as, sum bs => ofTerms (as.flatMap fun x => bs.map fun y => times x y)
  | sum as, b => ofTerms (as.map fun x => times x b)
  | a, sum bs => ofTerms (bs.map fun y => times y a)
  | prod fs, b => if first then times (prod fs) b else ofFactors (fs ++ [b])
  | a, b => times a b

/-- Some factors multiplied out, from the left. -/
def multiplyOut : List Expr → Expr
  | [] => num 1
  | [f] => f
  | f :: g :: fs => fs.foldl (fun p h => distribute p h false) (distribute f g true)

mutual

/-- Multiplies out every product, and leaves powers as they are but for their bases. -/
def multipliedOut : Expr → Expr
  | num q => num q
  | sym x => sym x
  | pow b e => pow b.multipliedOut e
  | prod fs => multiplyOut (multipliedOutAll fs)
  | sum ts => ofTerms (multipliedOutAll ts)

/-- Multiplies out every product in each expression of a list. -/
def multipliedOutAll : List Expr → List Expr
  | [] => []
  | e :: es => e.multipliedOut :: multipliedOutAll es

end

/-- What is left of an exponent when its numerator has been written out as a product: its sign over
its denominator. -/
def residue (e : Rat) : Rat :=
  Rational.inLowestTerms (if 0 < e.num then 1 else -1) e.den (Rational.den_ne_zero e)

/-- An expanded base raised to an exponent and expanded. Powers inside the base have no numerators
left to write out, so of the repeated base only the products need to be multiplied out. -/
def expandPower (b : Expr) (e : Rat) : Expr :=
  if e = 1 then b
  else if e = 0 then num 1
  else if 1 < e.num.natAbs then
    let repeated := multiplyOut (List.replicate e.num.natAbs b.multipliedOut)
    if residue e = 1 then repeated else pow repeated (residue e)
  else pow b e

mutual

/-- An expression with its products multiplied out and its powers written as products. -/
def expand : Expr → Expr
  | num q => num q
  | sym x => sym x
  | pow b e => expandPower b.expand e
  | prod fs => multiplyOut (expandAll fs)
  | sum ts => ofTerms (expandAll ts)

/-- Expands each expression of a list. -/
def expandAll : List Expr → List Expr
  | [] => []
  | e :: es => e.expand :: expandAll es

end

end ExactAlgebra.Expr
