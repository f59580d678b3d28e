import ExactAlgebra.Input.Token

/-!
# Expressions on one line

An expression is written as a row of tokens in which every sign has two operands: in front of them
(polish notation, `- x 1`) or behind them (`x 1 -`). Both are read with a stack of operands. A row
with the signs behind is read from the left, and finds the right operand of a sign on top; a row
with the signs in front is read from the right, and finds the left operand on top.
-/

namespace ExactAlgebra

/-- On which side of its operands a sign stands. -/
inductive TokenOrder where
  /-- In front of them. -/
  | polish
  /-- Behind them. -/
  | rpn
deriving DecidableEq

namespace TokenOrder

/-- The orders. -/
def all : List TokenOrder := [polish, rpn]

/-- The name of an order. -/
def name : TokenOrder → String
  | polish => "polish"
  | rpn => "rpn"

/-- The tokens of a line in the order in which they are read. -/
def readingOrder : TokenOrder → List String → List String
  | polish, ts => ts.reverse
  | rpn, ts => ts

/-- The left and the right operand of a sign, given the upper and the lower one on the stack. -/
def sides : TokenOrder → (upper lower : Expr) → Expr × Expr
  | polish, upper, lower => (upper, lower)
  | rpn, upper, lower => (lower, upper)

variable (guess : RootGuess)

/-- What reading one token makes of the stack. -/
def readToken (order : TokenOrder) (stack : List Expr) (token : String) : Traced (List Expr) :=
  match Operation.ofString? token with
  | some o =>
    match stack with
    | upper :: lower :: rest => do
      let (left, right) := order.sides upper lower
      return (← o.combine guess left right) :: rest
    | _ => .fail (.algebra (.illegalState token))
  | none =>
    match Expr.ofToken? token with
    | some e => return e :: stack
    | none => .fail (.invalid (.unknownToken token))

/-- What reading tokens, from the first on, makes of the stack. -/
def readTokens (order : TokenOrder) : List Expr → List String → Traced (List Expr)
  | stack, [] => pure stack
  | stack, t :: ts => do readTokens order (← order.readToken guess stack t) ts

/-- The expression that a line of tokens is. -/
def readLine (order : TokenOrder) (line : Scalar) : Traced Expr := do
  let tokens ← tokensOf line
  match ← order.readTokens guess [] (order.readingOrder tokens) with
  | [e] => return e
  | stack => .fail (.invalid (.operandsLeft stack.length))

end TokenOrder

end ExactAlgebra
