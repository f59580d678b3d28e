import ExactAlgebra.Canonical.Power
import ExactAlgebra.Canonical.Product

/-!
# Simplification

`simplify` brings an expression into canonical form: children first, nested sums and products drawn
into one, like terms and like factors collected, powers of numbers worked out where they are
rational. It fails only where a power has no value.

The pass goes on with expressions that it has built itself, the power of a group or a sum or product
to be reduced again, so it does not follow the structure of its input. It is given a number of steps
that bounds how deep the calls nest. `steps` is enough: every call goes to an expression of smaller
`weight`.
-/

namespace ExactAlgebra

namespace Canonical

/-- Some expressions, with those of a kind replaced by their children. -/
def spliced (kind : Kind) (us : List Expr) : List Expr :=
  us.flatMap fun u => if u.kind = kind then u.children else [u]

/-- The children of a node in canonical form, by `again`, with nodes of the node's own kind replaced
by their children. -/
def flattened (again : Expr → Traced Expr) (e : Expr) : Traced (List Expr) := do
  let us ← Traced.mapAll again e.children
  return spliced e.kind us

variable (guess : RootGuess)

/-- The canonical form of an expression, where `again` finds that of the expressions it depends
on. -/
def reduce (again : Expr → Traced Expr) (e : Expr) : Traced Expr :=
  match e with
  | .num q => pure (.num q)
  | .sym x => pure (.sym x)
  | .pow b e => do power guess (← again b) e
  | .prod fs => do product again (← flattened again (.prod fs))
  | .sum ts => do sum again (← flattened again (.sum ts))

/-- The canonical form of an expression, with calls that nest at most so deep. -/
def within : (steps : Nat) → Expr → Traced Expr
  | 0, _ => .fail .outOfSteps
  | steps + 1, e => reduce guess (within steps) e

/-- What bounds the calls for an expression. It goes by size; a product weighs a little more, since
the power of a group of its factors may have the size of the product. -/
def weight (e : Expr) : Nat :=
  2 * e.size + if e.kind = .product then 1 else 0

/-- How deep the calls for an expression may nest. -/
def steps (e : Expr) : Nat :=
  weight e + 1

end Canonical

namespace Expr

variable (guess : RootGuess)

/-- The canonical form of an expression, with the notes that finding it makes. -/
def simplifyTraced (e : Expr) : Traced Expr :=
  Canonical.within guess (Canonical.steps e) e

/-- The canonical form of an expression. -/
def simplify (e : Expr) : Except Error Expr :=
  (e.simplifyTraced guess).outcome

/-- The children of a node in canonical form, those of its own kind replaced by theirs. -/
def flatten (e : Expr) : Except Error (List Expr) :=
  (Canonical.flattened (simplifyTraced guess) e).outcome

/-- The number that an expression comes down to as an exponent. -/
def toExponent (e : Expr) : Traced Rat := do
  match e with
  | num q => return q
  | e =>
    match ← e.simplifyTraced guess with
    | num q => return q
    | _ => .fail (.invalid (.unreducedExponent e))

end Expr

end ExactAlgebra
