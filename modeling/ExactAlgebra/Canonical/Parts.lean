import ExactAlgebra.Expr.Build

/-!
# Parts of terms and factors

Like terms agree but for a rational factor, like factors but for an exponent. A term is read as a
coefficient times a key, a factor as a base with an exponent; terms with one key are added by adding
their coefficients, factors with one base multiplied by adding their exponents.

The coefficient of a product is its first factor, if that is a number: in canonical order a number
comes before everything else.
-/

namespace ExactAlgebra.Expr

/-- The base of a factor: what is raised to its exponent. -/
def base : Expr → Expr
  | pow b _ => b
  | u => u

/-- The exponent of a factor; it is one for anything but a power. -/
def exponent : Expr → Rat
  | pow _ e => e
  | _ => 1

/-- The coefficient of a term; it is one for anything but a product with a number in front. -/
def coefficient : Expr → Rat
  | prod (num q :: _) => q
  | _ => 1

/-- The key of a term: what is left of it without its coefficient. -/
def key : Expr → Except Error Expr
  | prod [num _, u] => .ok u
  | prod (num _ :: us) => prodOf us
  | u => .ok u

/-- The factors of an expression, which is its own only factor where it is no product. -/
def factors : Expr → List Expr
  | prod fs => fs
  | u => [u]

/-- Some terms added up, where there may be fewer than two. -/
def total : List Expr → Except Error Expr
  | [] => .ok (num 0)
  | [t] => .ok t
  | ts => sumOf ts

/-- Some factors multiplied, where there may be fewer than two; without any the result is `empty`.
-/
def productOr (empty : Expr) : List Expr → Except Error Expr
  | [] => .ok empty
  | [f] => .ok f
  | fs => prodOf fs

end ExactAlgebra.Expr
