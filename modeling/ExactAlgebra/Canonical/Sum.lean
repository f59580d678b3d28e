import ExactAlgebra.Canonical.Groups
import ExactAlgebra.Canonical.Parts
import ExactAlgebra.Traced

/-!
# Reducing a sum

The terms are in canonical form and none of them is a sum. Numbers are added up; the other terms are
grouped by their keys and each key gets the sum of its coefficients. A key that is itself a sum and
ends with the coefficient one gives its terms to the sum, which is then reduced again, since they
may be like terms of others.
-/

namespace ExactAlgebra.Canonical

/-- The numbers among some terms, added up. -/
def constantTerm : List Expr → Rat
  | [] => 0
  | .num q :: us => Rational.add q (constantTerm us)
  | _ :: us => constantTerm us

/-- The coefficients of the terms that are no numbers, added up under their keys. -/
def termGroups : List Expr → Groups → Except Error Groups
  | [], gs => .ok gs
  | .num _ :: us, gs => termGroups us gs
  | u :: us, gs => do termGroups us (gs.add (← u.key) u.coefficient)

/-- Whether a group of like terms is a whole sum, whose terms belong to the sum around it. -/
def isUnwrapped : Expr × Rat → Bool
  | (.sum _, c) => c = 1
  | _ => false

/-- The terms that a group of like terms comes down to. -/
def likeTerms : Expr × Rat → Except Error (List Expr)
  | (k, c) =>
    if c = 0 then .ok []
    else if c = 1 then
      match k with
      | .sum ts => .ok ts
      | k => .ok [k]
    else do return [← Expr.prodOf (.num c :: k.factors)]

/-- A number among other terms, left out where it is zero. -/
def besides (constant neutral : Rat) : List Expr :=
  if constant = neutral then [] else [.num constant]

/-- The terms of a sum collected, and whether a group of them was unwrapped. -/
def collected (us : List Expr) : Except Error (List Expr × Bool) := do
  let groups ← termGroups us []
  let grouped ← groups.mapM likeTerms
  return (grouped.flatten ++ besides (constantTerm us) 0, groups.any isUnwrapped)

/-- The sum of some terms in canonical form, reduced; `again` reduces an expression from the
start. -/
def sum (again : Expr → Traced Expr) (us : List Expr) : Traced Expr := do
  let (terms, unwrapped) ← collected us
  if unwrapped then
    Traced.tell (.regroupedTerms terms)
    again (← Expr.sumOf terms)
  else
    Expr.total terms

end ExactAlgebra.Canonical
