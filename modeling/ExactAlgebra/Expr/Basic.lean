import ExactAlgebra.Letter

/-!
# Expressions

An expression is a rational number, a letter, a power with a rational exponent, or a product or sum
of further expressions. The tree is plain data; what the constructors of `Expr.Build` promise of
every node they make is stated there as `Expr.WellFormed`.

`Expr.size` counts the nodes that are not rational numbers. It is the weight by which the work of
bringing an expression into canonical form is measured: collecting like terms and like factors
trades nodes for numbers, and so never adds to it.
-/

namespace ExactAlgebra

/-- An exact algebraic expression over the letters. -/
inductive Expr where
  | num (value : Rat)
  | sym (letter : Letter)
  | pow (base : Expr) (exponent : Rat)
  | prod (factors : List Expr)
  | sum (terms : List Expr)

/-- The five kinds of node. -/
inductive Kind where
  | rational
  | power
  | product
  | sum
  | symbol
deriving DecidableEq

namespace Kind

/-- What a message calls a node of this kind. -/
def name : Kind → String
  | rational => "Rational"
  | power => "Power"
  | product => "Product"
  | sum => "Sum"
  | symbol => "Symbol"

/-- The place of the kind in the canonical order: numbers come first, letters after every
composite. -/
def priority : Kind → Nat
  | rational => 0
  | power => 2
  | product => 3
  | sum => 4
  | symbol => 6

/-- The sign in front of the children of a composite node. -/
def sign? : Kind → Option Char
  | rational => none
  | power => some '^'
  | product => some '*'
  | sum => some '+'
  | symbol => none

theorem priority_injective {k l : Kind} (h : k.priority = l.priority) : k = l := by
  cases k <;> cases l <;> first | rfl | exact absurd h (by decide)

end Kind

namespace Expr

instance : Inhabited Expr := ⟨num 0⟩

/-- The kind of the node at the root. -/
def kind : Expr → Kind
  | num _ => .rational
  | sym _ => .symbol
  | pow _ _ => .power
  | prod _ => .product
  | sum _ => .sum

/-- The nodes directly below the root; those of a power are its base and its exponent. -/
def children : Expr → List Expr
  | num _ => []
  | sym _ => []
  | pow b e => [b, num e]
  | prod fs => fs
  | sum ts => ts

mutual

/-- The number of nodes that are not rational numbers. -/
def size : Expr → Nat
  | num _ => 0
  | sym _ => 1
  | pow b _ => b.size + 1
  | prod fs => sizeAll fs + 1
  | sum ts => sizeAll ts + 1

/-- The sizes of all expressions of a list, added up. -/
def sizeAll : List Expr → Nat
  | [] => 0
  | e :: es => e.size + sizeAll es

end

end Expr

end ExactAlgebra
