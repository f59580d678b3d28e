import ExactAlgebra.Canonical.Sum

/-!
# Reducing a product

The factors are in canonical form and none of them is a product. Numbers are multiplied; the other
factors are grouped by their bases, and the power of each base to the sum of its exponents is
reduced. If such a power is a product, or if two of them have one base, the product is reduced
again.
-/

namespace ExactAlgebra.Canonical

/-- The numbers among some factors, multiplied. -/
def constantFactor : List Expr → Rat
  | [] => 1
  | .num q :: us => Rational.multiply q (constantFactor us)
  | _ :: us => constantFactor us

/-- The exponents of the factors that are no numbers, added up under their bases. -/
def factorGroups : List Expr → Groups → Groups
  | [], gs => gs
  | .num _ :: us, gs => factorGroups us gs
  | u :: us, gs => factorGroups us (gs.add u.base u.exponent)

/-- What the groups of like factors come down to: a number, other factors, and whether some of these
come from a product. -/
structure Powers where
  constant : Rat
  factors : List Expr
  fromProduct : Bool

namespace Powers

/-- No powers at all. -/
def none : Powers := ⟨1, [], false⟩

/-- One power more, in front of the others. -/
def cons (p : Expr) (ps : Powers) : Powers :=
  match p with
  | .num q => { ps with constant := Rational.multiply q ps.constant }
  | .prod fs => { ps with factors := fs ++ ps.factors, fromProduct := true }
  | p => { ps with factors := p :: ps.factors }

end Powers

/-- The base of each group raised to its exponent, reduced by `again`; the exponent zero leaves
nothing. -/
def groupPowers (again : Expr → Traced Expr) : Groups → Traced Powers
  | [] => pure .none
  | (b, e) :: gs =>
    if e = 0 then groupPowers again gs
    else do
      let p ← again (.pow b e)
      let ps ← groupPowers again gs
      return .cons p ps

/-- The product of some factors in canonical form, reduced; `again` reduces an expression from the
start. -/
def product (again : Expr → Traced Expr) (us : List Expr) : Traced Expr := do
  let ps ← groupPowers again (factorGroups us [])
  let constant := Rational.multiply (constantFactor us) ps.constant
  if constant = 0 then return .num 0
  else if ps.fromProduct ∨ ¬ (ps.factors.map Expr.base).Nodup then
    Traced.tell (.regroupedFactors ps.factors)
    again (← Expr.prodOf (ps.factors ++ [.num constant]))
  else
    Expr.productOr (.num constant) (ps.factors ++ besides constant 1)

end ExactAlgebra.Canonical
