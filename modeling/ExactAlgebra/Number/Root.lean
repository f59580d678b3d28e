import ExactAlgebra.Number.Estimate
import ExactAlgebra.Number.Rational

/-!
# Exact roots

The root of a number is of use only if it is rational. `exactRoot` finds the root of an integer
among a guess and its two neighbours, each checked exactly, and for a radicand of more than 1000
bits by Newton's iteration in integers (`floorRoot`). Whatever the guess is, a root that is found is
right; what depends on the guess is only which roots are found.

The guess is a parameter of everything that takes roots. `Estimate.root` is the one in use.
-/

namespace ExactAlgebra

/-- A guess at the root of a radicand for an index; it may be wrong. -/
abbrev RootGuess := (radicand index : Nat) → Nat

namespace Root

/-- The number of binary digits of the magnitude of an integer. -/
def bitLength (n : Int) : Nat :=
  if n = 0 then 0 else n.natAbs.log2 + 1

/-- The widest radicand whose root is guessed, in bits. -/
def guessedBits : Nat := 1000

/-- Newton's iteration for the root of `n`, from `x` downwards until it no longer falls. -/
def newton (n r : Int) : (steps : Nat) → (x : Int) → Except Error Int
  | 0, _ => .error .outOfSteps
  | steps + 1, x =>
    let slope := intPow x (r - 1).toNat
    if slope = 0 then .error .divisionByZero
    else
      let y := ((r - 1) * x + n.fdiv slope).fdiv r
      if x ≤ y then .ok x else newton n r steps y

/-- Where the iteration starts: the least power of two with the bits that a root can have. -/
def start (n r : Int) : Int :=
  twoTo ((bitLength n + r - 1).fdiv r).toNat

/-- The largest integer whose power is at most `n`, for a positive `n` and a positive index. A
negative index starts the iteration at one, if it does at all, and there it ends for an `n` up to
one. -/
def floorRoot (n r : Int) : Except Error Int :=
  if 0 < r then newton n r ((start n r).natAbs + n.natAbs + 2) (start n r)
  else if bitLength n < -r ∧ n ≤ 1 then .ok 1
  else .error .divisionByZero

/-- The guess and its neighbours, in the order in which they are tried. -/
def candidates (g : Nat) : List Nat :=
  match g with
  | 0 => [0, 1]
  | k + 1 => [k + 1, k, k + 2]

/-- The first of the candidates whose power is the radicand. -/
def guessedRoot? (guess : RootGuess) (n r : Nat) : Option Nat :=
  (candidates (guess n r)).find? fun c => c.pow r = n

/-- The integer root of an integer, if there is one and it is found. Below two a radicand is its own
root. -/
def exactRoot (guess : RootGuess) (n r : Int) : Except Error (Option Int) :=
  if n < 2 then .ok (some n)
  -- The power of two with this exponent already exceeds the radicand.
  else if bitLength n ≤ r then .ok none
  else if r ≤ 0 then .error .divisionByZero
  else if guessedBits < bitLength n then do
    let x ← floorRoot n r
    return if intPow x r.toNat = n then some x else none
  else .ok ((guessedRoot? guess n.toNat r.toNat).map Int.ofNat)

/-- The rational root of a rational number, if there is one and it is found. -/
def rationalRoot (guess : RootGuess) (q : Rat) (r : Int) : Except Error (Option Rat) :=
  if q.num < 0 ∧ r % 2 = 0 then .error (.undefined (.noRealRoot r q))
  else do
    let num ← exactRoot guess q.num.natAbs r
    let den ← exactRoot guess q.den r
    match num, den with
    | some n, some d => some <$> Rational.ofInts (if q.num < 0 then -n else n) d
    | _, _ => return none

end Root

end ExactAlgebra
